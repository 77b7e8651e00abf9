import MoltarOS.Lib.BitArray
import MoltarOS.Lib.Machine
import MoltarOS.Libc.String
import Mathlib.Data.List.Nodup

/-!
# The page allocator

`mm/alloc.c`: pages of 4 MB, handed out at rising virtual addresses and never taken
back. A call of `alloc_block` looks for a directory entry that is not present from
`virtual_addr` on, and separately for the lowest frame whose bit is clear.

## What is proved

`Admissible` ties the two together: the present entries map pairwise distinct frames,
all of them marked. `pages_apart` says that each call keeps it, adds one page and
changes nothing else, and that hence no two pages share anything in any run of calls;
`translate_injective` is what this means to the users of the memory.
-/

namespace MoltarOS.Mm

open MoltarOS.Lib MoltarOS.Lib.Word MoltarOS.Libc

/-! ### The code -/

/-- `PAGE_SIZE`, 4 MB. -/
def PAGE_SIZE : UInt32 := 4 * 1024 * 1024

/-- `NUM_FRAMES`, of the frames and of the directory entries. -/
def NUM_FRAMES : UInt32 := 1024

/-- The bit of an entry that is in use. -/
def PRESENT : UInt32 := 0x1

/-- The bit of a writable page. -/
def READ_WRITE : UInt32 := 0x2

/-- The bit of a page of 4 MB. -/
def PAGE_MB : UInt32 := (1 : UInt32) <<< 7

/-- What `first_free_frame` returns when there is none: `(uint32_t) -1`. -/
def PAGE_ERR : UInt32 := 0xFFFFFFFF

/-- `index_of`. -/
def indexOf (frame : UInt32) : UInt32 := frame / 32

/-- The 1024 entries of the page directory. -/
abbrev PageDirectory := Fin 1024 → UInt32

/-- The entry does not have its `PRESENT` bit clear. -/
def IsPresent (entry : UInt32) : Prop := entry &&& PRESENT ≠ 0

instance (entry : UInt32) : Decidable (IsPresent entry) := inferInstanceAs (Decidable (_ ≠ _))

/-- The static variables of `alloc.c`. (`dir_bitmap` is not used.) -/
structure AllocState where
  /-- Where the next search starts. -/
  virtualAddr : UInt32
  /-- The page directory the hardware uses, through `cr3`. -/
  pageDirectory : PageDirectory
  /-- The frames in use. -/
  frameBitmap : BitArray

/-- The inner loop of `first_free_frame`: the first bit of a word that is unset. -/
def firstFreeBit (word : UInt32) : Option ℕ :=
  (List.range 32).find? fun j => word &&& 1 <<< UInt32.ofNat j = 0

/-- One iteration of the outer loop: a free frame of word `i`, if it has one. -/
def freeFrameIn (bitmap : BitArray) (i : ℕ) : Option UInt32 :=
  if bitmap i ≠ 0xFFFFFFFF then (firstFreeBit (bitmap i)).map fun j => UInt32.ofNat (i * 32 + j) else none

/-- `first_free_frame`. -/
def firstFreeFrame (bitmap : BitArray) : UInt32 :=
  ((List.range (indexOf NUM_FRAMES).toNat).findSome? (freeFrameIn bitmap)).getD PAGE_ERR

/-- `alloc_init` when `cr3` points to the given directory. -/
def allocInit (bootDirectory : PageDirectory) : AllocState where
  virtualAddr := PAGE_SIZE
  pageDirectory := bootDirectory
  frameBitmap := bitmapSet (bitmapSet (fun _ => 0) 0) 1

/-- `(virtual_addr / PAGE_SIZE) % NUM_FRAMES`, the index of an address in the directory. -/
def dirIndex (va : UInt32) : Fin 1024 :=
  ⟨(va / PAGE_SIZE % NUM_FRAMES).toNat, by
    rw [UInt32.toNat_mod]
    exact Nat.mod_lt _ (by decide)⟩

/-- The entry written for a frame: `(frame_idx * PAGE_SIZE) | PAGE_MB | PRESENT | READ_WRITE`. -/
def pageEntry (frameIdx : UInt32) : UInt32 := frameIdx * PAGE_SIZE ||| PAGE_MB ||| PRESENT ||| READ_WRITE

/-- The loop of `alloc_block` with `n` iterations to go. An error is the text of the
`KPANIC` that halts the machine. -/
def allocLoop (s : AllocState) : ℕ → Except String AllocState
  | 0 => .error "Could not find a free virtual address!"
  | n + 1 =>
    let idx := dirIndex s.virtualAddr
    if IsPresent (s.pageDirectory idx) then
      allocLoop { s with virtualAddr := s.virtualAddr + PAGE_SIZE } n
    else
      let frameIdx := firstFreeFrame s.frameBitmap
      if frameIdx = PAGE_ERR then .error "Could not find a free physical address!"
      else .ok { s with
        frameBitmap := bitmapSet s.frameBitmap frameIdx
        pageDirectory := Function.update s.pageDirectory idx (pageEntry frameIdx) }

/-- `alloc_block`: the page, and the state and the memory after the call. -/
def allocBlock (s : AllocState) (m : Mem) : Except String (UInt32 × AllocState × Mem) := do
  let s ← allocLoop s 1024
  let retval := s.virtualAddr
  return (retval, { s with virtualAddr := s.virtualAddr + PAGE_SIZE }, memset m retval 0 PAGE_SIZE)

/-! ### Entries and frames -/

/-- The frame an entry maps: bits 22 to 31. -/
def frameOf (entry : UInt32) : ℕ := entry.toNat / 2 ^ 22

theorem toNat_PAGE_SIZE : PAGE_SIZE.toNat = 2 ^ 22 := by decide

theorem dirIndex_val (va : UInt32) : (dirIndex va).val = va.toNat / 2 ^ 22 := by
  have hlt := va.toNat_lt
  have hnum : NUM_FRAMES.toNat = 1024 := rfl
  rw [dirIndex, Fin.val_mk, UInt32.toNat_mod, UInt32.toNat_div, toNat_PAGE_SIZE, hnum]
  exact Nat.mod_eq_of_lt (by omega)

/-- The flags of an entry fit below its frame. -/
theorem toNat_pageEntry {f : UInt32} (hf : f.toNat < 1024) : (pageEntry f).toNat = 2 ^ 22 * f.toNat + 0x83 := by
  have hmul : (f * PAGE_SIZE).toNat = 2 ^ 22 * f.toNat := by
    rw [toNat_mul_of_lt (by rw [toNat_PAGE_SIZE]; omega), toNat_PAGE_SIZE, Nat.mul_comm]
  have hflags : (PAGE_MB ||| (PRESENT ||| READ_WRITE)).toNat = 0x83 := by decide
  rw [pageEntry, UInt32.or_assoc, UInt32.or_assoc, UInt32.toNat_or, hmul, hflags,
    Nat.two_pow_add_eq_or_of_lt (by decide)]

theorem frameOf_pageEntry {f : UInt32} (hf : f.toNat < 1024) : frameOf (pageEntry f) = f.toNat := by
  rw [frameOf, toNat_pageEntry hf]
  omega

theorem isPresent_iff {e : UInt32} : IsPresent e ↔ e.toNat % 2 = 1 := by
  have hone : PRESENT.toNat = 1 := rfl
  have hzero : (0 : UInt32).toNat = 0 := rfl
  rw [IsPresent, Ne, ← UInt32.toNat_inj, UInt32.toNat_and, hone, Nat.and_one_is_mod, hzero]
  omega

theorem isPresent_pageEntry {f : UInt32} (hf : f.toNat < 1024) : IsPresent (pageEntry f) := by
  rw [isPresent_iff, toNat_pageEntry hf]
  omega

/-! ### The search for a frame -/

theorem firstFreeBit_eq_some {w : UInt32} {j : ℕ} (h : firstFreeBit w = some j) :
    j < 32 ∧ w.toNat.testBit j = false ∧ ∀ k < j, w.toNat.testBit k := by
  have hbit : ∀ k < 32, (w &&& 1 <<< UInt32.ofNat k = 0 ↔ w.toNat.testBit k = false) := fun k hk => by
    have hk' : (UInt32.ofNat k).toNat = k := toNat_ofNat_of_lt (by omega)
    rw [and_one_shiftLeft_eq_zero_iff (by omega), hk']
  rw [firstFreeBit, List.find?_range_eq_some] at h
  obtain ⟨hj, hmem, hlow⟩ := h
  have hj32 := List.mem_range.mp hmem
  refine ⟨hj32, (hbit j hj32).mp (of_decide_eq_true hj), fun k hk => ?_⟩
  have hk' := hlow k hk
  rw [Bool.not_eq_true', decide_eq_false_iff_not, hbit k (by omega), Bool.not_eq_false] at hk'
  exact hk'

theorem firstFreeBit_eq_none {w : UInt32} (h : firstFreeBit w = none) {k : ℕ} (hk : k < 32) : w.toNat.testBit k := by
  have hk' : (UInt32.ofNat k).toNat = k := toNat_ofNat_of_lt (by omega)
  rw [firstFreeBit, List.find?_range_eq_none] at h
  have := h k hk
  rw [Bool.not_eq_true', decide_eq_false_iff_not, and_one_shiftLeft_eq_zero_iff (by omega), hk',
    Bool.not_eq_false] at this
  exact this

theorem freeFrameIn_eq_some {bitmap : BitArray} {i : ℕ} (hi : i < 32) {f : UInt32} (h : freeFrameIn bitmap i = some f) :
    i * 32 ≤ f.toNat ∧ f.toNat < i * 32 + 32 ∧ ¬ Marked bitmap f.toNat ∧
      ∀ k, i * 32 ≤ k → k < f.toNat → Marked bitmap k := by
  rw [freeFrameIn] at h
  split_ifs at h
  obtain ⟨j, hj, rfl⟩ := Option.map_eq_some_iff.mp h
  obtain ⟨hj32, hclear, hlow⟩ := firstFreeBit_eq_some hj
  have hf : (UInt32.ofNat (i * 32 + j)).toNat = i * 32 + j := toNat_ofNat_of_lt (by omega)
  have hword : ∀ k < 32, (Marked bitmap (i * 32 + k) ↔ (bitmap i).toNat.testBit k) := fun k hk => by
    have hdiv : (i * 32 + k) / 32 = i := by omega
    have hmod : (i * 32 + k) % 32 = k := by omega
    rw [Marked, hdiv, hmod]
  rw [hf]
  refine ⟨by omega, by omega, ?_, fun k h1 h2 => ?_⟩
  · rw [hword j hj32, hclear]
    exact Bool.false_ne_true
  · obtain ⟨d, rfl⟩ := Nat.exists_eq_add_of_le h1
    exact (hword d (by omega)).mpr (hlow d (by omega))

theorem freeFrameIn_eq_none {bitmap : BitArray} {i : ℕ} (h : freeFrameIn bitmap i = none) {k : ℕ} (hk : k / 32 = i) :
    Marked bitmap k := by
  have hlt : k % 32 < 32 := Nat.mod_lt k (by decide)
  rw [Marked, hk]
  rw [freeFrameIn] at h
  split_ifs at h with hfull
  · exact firstFreeBit_eq_none (Option.map_eq_none_iff.mp h) hlt
  · exact testBit_of_eq_max (not_ne_iff.mp hfull) hlt

/-- **`first_free_frame`** returns the lowest frame that is not marked, or `PAGE_ERR`
when all are. -/
theorem firstFreeFrame_spec (bitmap : BitArray) :
    ((firstFreeFrame bitmap).toNat < 1024 ∧ ¬ Marked bitmap (firstFreeFrame bitmap).toNat ∧
      ∀ k < (firstFreeFrame bitmap).toNat, Marked bitmap k) ∨
    (firstFreeFrame bitmap = PAGE_ERR ∧ ∀ k < 1024, Marked bitmap k) := by
  have hwords : (indexOf NUM_FRAMES).toNat = 32 := rfl
  rw [firstFreeFrame, hwords]
  cases hfind : (List.range 32).findSome? (freeFrameIn bitmap) with
  | some f =>
    obtain ⟨pre, i, post, hrange, hf, hpre⟩ := List.findSome?_eq_some_iff.mp hfind
    have hi : i < 32 := List.mem_range.mp (by rw [hrange]; simp)
    -- the words before `i` come before it in the list
    have hbefore : ∀ j < i, j ∈ pre := fun j hj => by
      have hmem : j ∈ pre ++ i :: post := by
        rw [← hrange]
        exact List.mem_range.mpr (by omega)
      have hsorted : (pre ++ i :: post).Pairwise (· < ·) := hrange ▸ List.pairwise_lt_range
      have hpost := (List.pairwise_cons.mp (List.pairwise_append.mp hsorted).2.1).1
      rcases List.mem_append.mp hmem with h | h
      · exact h
      · rcases List.mem_cons.mp h with rfl | h
        · exact absurd hj (Nat.lt_irrefl _)
        · exact absurd (hpost j h) (by omega)
    obtain ⟨hlo, hhi, hclear, hlow⟩ := freeFrameIn_eq_some hi hf
    refine Or.inl ⟨by rw [Option.getD_some]; omega, hclear, fun k hk => ?_⟩
    rw [Option.getD_some] at hk
    by_cases hki : i * 32 ≤ k
    · exact hlow k hki hk
    · exact freeFrameIn_eq_none (hpre (k / 32) (hbefore _ (by omega))) rfl
  | none =>
    rw [List.findSome?_eq_none_iff] at hfind
    exact Or.inr ⟨rfl, fun k hk => freeFrameIn_eq_none (hfind (k / 32) (List.mem_range.mpr (by omega))) rfl⟩

/-! ### One call -/

/-- **The present entries map pairwise distinct frames, all of them marked.** -/
structure AllocState.Admissible (s : AllocState) : Prop where
  /-- The search starts at a page. -/
  aligned : s.virtualAddr.toNat % 2 ^ 22 = 0
  /-- The frames mapped are marked. -/
  marked : ∀ i, IsPresent (s.pageDirectory i) → Marked s.frameBitmap (frameOf (s.pageDirectory i))
  /-- No frame is mapped twice. -/
  injective : ∀ i j, IsPresent (s.pageDirectory i) → IsPresent (s.pageDirectory j) →
    frameOf (s.pageDirectory i) = frameOf (s.pageDirectory j) → i = j

/-- From `s` to `t` the page at `p` is added, and nothing else changes. -/
structure PageAdded (s : AllocState) (p : UInt32) (t : AllocState) : Prop where
  /-- It is a page. -/
  aligned : p.toNat % 2 ^ 22 = 0
  /-- Its entry was not present. -/
  absent : ¬ IsPresent (s.pageDirectory (dirIndex p))
  /-- It is now. -/
  present : IsPresent (t.pageDirectory (dirIndex p))
  /-- Its frame was not claimed. -/
  unclaimed : ¬ Marked s.frameBitmap (frameOf (t.pageDirectory (dirIndex p)))
  /-- All lower frames were. -/
  lowest : ∀ f < frameOf (t.pageDirectory (dirIndex p)), Marked s.frameBitmap f
  /-- The other entries stay. -/
  entries : ∀ i ≠ dirIndex p, t.pageDirectory i = s.pageDirectory i
  /-- So do the other bits. -/
  bits : ∀ f, Marked t.frameBitmap f ↔ f = frameOf (t.pageDirectory (dirIndex p)) ∨ Marked s.frameBitmap f

theorem aligned_add {va : UInt32} (h : va.toNat % 2 ^ 22 = 0) : (va + PAGE_SIZE).toNat % 2 ^ 22 = 0 := by
  rw [UInt32.toNat_add, toNat_PAGE_SIZE]
  omega

/-- What the loop does when it finds a page: `virtual_addr` is left at it. -/
theorem allocLoop_spec {n : ℕ} {s t : AllocState} (h : s.virtualAddr.toNat % 2 ^ 22 = 0) (ht : allocLoop s n = .ok t) :
    PageAdded s t.virtualAddr t := by
  induction n generalizing s with
  | zero => cases ht
  | succ n ih =>
    simp only [allocLoop] at ht
    split_ifs at ht with hpresent herr
    · have hadded := @ih { s with virtualAddr := s.virtualAddr + PAGE_SIZE } (aligned_add h) ht
      exact ⟨hadded.aligned, hadded.absent, hadded.present, hadded.unclaimed, hadded.lowest,
        hadded.entries, hadded.bits⟩
    · cases ht
      obtain ⟨hlt, hclear, hlow⟩ := (firstFreeFrame_spec s.frameBitmap).resolve_right fun hx => herr hx.1
      have hframe := frameOf_pageEntry hlt
      refine ⟨h, hpresent, ?_, ?_, ?_, fun i hi => Function.update_of_ne hi _ _, fun f => ?_⟩
      · simp only [Function.update_self]
        exact isPresent_pageEntry hlt
      · simp only [Function.update_self, hframe]
        exact hclear
      · simp only [Function.update_self, hframe]
        exact hlow
      · simp only [Function.update_self, hframe]
        exact marked_bitmapSet

theorem allocBlock_eq_ok {s t : AllocState} {m m' : Mem} {p : UInt32} (h : allocBlock s m = .ok (p, t, m')) :
    ∃ u, allocLoop s 1024 = .ok u ∧ p = u.virtualAddr ∧ t = { u with virtualAddr := u.virtualAddr + PAGE_SIZE } ∧
      m' = memset m p 0 PAGE_SIZE := by
  rw [allocBlock] at h
  generalize hloop : allocLoop s 1024 = r at h
  cases r with
  | error e => cases h
  | ok u =>
    simp only [bind, Except.bind, pure, Except.pure, Except.ok.injEq, Prod.mk.injEq] at h
    obtain ⟨rfl, rfl, rfl⟩ := h
    exact ⟨u, rfl, rfl, rfl, rfl⟩

/-- `alloc_block` adds the page it returns. -/
theorem pageAdded_of_allocBlock {s t : AllocState} (h : s.virtualAddr.toNat % 2 ^ 22 = 0) {m m' : Mem} {p : UInt32}
    (hc : allocBlock s m = .ok (p, t, m')) : PageAdded s p t := by
  obtain ⟨u, hu, rfl, rfl, -⟩ := allocBlock_eq_ok hc
  have hadded := allocLoop_spec h hu
  exact ⟨hadded.aligned, hadded.absent, hadded.present, hadded.unclaimed, hadded.lowest, hadded.entries, hadded.bits⟩

/-- A page on a frame of its own keeps the correspondence of entries and frames. -/
theorem PageAdded.admissible {s t : AllocState} {p : UInt32} (ha : PageAdded s p t) (h : s.Admissible)
    (haligned : t.virtualAddr.toNat % 2 ^ 22 = 0) : t.Admissible := by
  -- an old page is not on the new frame
  have hold : ∀ i ≠ dirIndex p, IsPresent (t.pageDirectory i) →
      frameOf (t.pageDirectory i) ≠ frameOf (t.pageDirectory (dirIndex p)) := fun i hi hpresent heq => by
    rw [ha.entries i hi] at hpresent heq
    exact ha.unclaimed (heq ▸ h.marked i hpresent)
  refine ⟨haligned, fun i hi => ?_, fun i j hi hj heq => ?_⟩
  · rw [ha.bits]
    by_cases hip : i = dirIndex p
    · exact Or.inl (by rw [hip])
    · rw [ha.entries i hip] at hi ⊢
      exact Or.inr (h.marked i hi)
  · by_cases hip : i = dirIndex p <;> by_cases hjp : j = dirIndex p
    · rw [hip, hjp]
    · exact absurd (by rw [← heq, hip]) (hold j hjp hj)
    · exact absurd (by rw [heq, hjp]) (hold i hip hi)
    · rw [ha.entries i hip] at hi heq
      rw [ha.entries j hjp] at hj heq
      exact h.injective i j hi hj heq

/-- The next search starts at a page. -/
theorem aligned_of_allocBlock {s t : AllocState} (h : s.virtualAddr.toNat % 2 ^ 22 = 0) {m m' : Mem} {p : UInt32}
    (hc : allocBlock s m = .ok (p, t, m')) : t.virtualAddr.toNat % 2 ^ 22 = 0 := by
  obtain ⟨u, hu, -, rfl, -⟩ := allocBlock_eq_ok hc
  exact aligned_add (allocLoop_spec h hu).aligned

theorem admissible_of_allocBlock {s t : AllocState} (h : s.Admissible) {m m' : Mem} {p : UInt32}
    (hc : allocBlock s m = .ok (p, t, m')) : t.Admissible :=
  (pageAdded_of_allocBlock h.aligned hc).admissible h (aligned_of_allocBlock h.aligned hc)

/-! ### Runs of calls -/

/-- The allocator, and the pages it has handed out, newest first. -/
structure Handed where
  /-- The allocator. -/
  alloc : AllocState
  /-- The pages. -/
  pages : List UInt32

/-- Any number of calls of `alloc_block`. A step is a call, in whatever memory it finds. -/
def pageMachine : Machine Handed Mem where
  step s m :=
    match allocBlock s.alloc m with
    | .ok (p, t, _) => some ⟨t, p :: s.pages⟩
    | .error _ => none

/-- What holds after any number of calls from `s₀`. -/
structure Handed.Inv (s₀ : AllocState) (s : Handed) : Prop where
  /-- The correspondence of entries and frames. -/
  admissible : s.alloc.Admissible
  /-- The entries present at the start are as they were. -/
  kept : ∀ i, IsPresent (s₀.pageDirectory i) → s.alloc.pageDirectory i = s₀.pageDirectory i
  /-- Every page handed out is present. -/
  present : ∀ p ∈ s.pages, IsPresent (s.alloc.pageDirectory (dirIndex p))
  /-- None was at the start. -/
  absent : ∀ p ∈ s.pages, ¬ IsPresent (s₀.pageDirectory (dirIndex p))
  /-- None is handed out twice. -/
  nodup : (s.pages.map dirIndex).Nodup

theorem handed_step {s₀ : AllocState} {s t : Handed} {m : Mem} (h : s.Inv s₀) (hs : pageMachine.step s m = some t) :
    t.Inv s₀ := by
  simp only [pageMachine] at hs
  split at hs
  · next p u m' hc =>
    cases hs
    have hadded := pageAdded_of_allocBlock h.admissible.aligned hc
    have hne : ∀ i, IsPresent (s.alloc.pageDirectory i) → i ≠ dirIndex p := fun i hi hip => hadded.absent (hip ▸ hi)
    refine ⟨admissible_of_allocBlock h.admissible hc, fun i hi => ?_, ?_, ?_, ?_⟩
    · have hkept := h.kept i hi
      rw [hadded.entries i (hne i (hkept ▸ hi)), hkept]
    · rintro q (_ | ⟨_, hq⟩)
      · exact hadded.present
      · rw [hadded.entries _ (hne _ (h.present q hq))]
        exact h.present q hq
    · rintro q (_ | ⟨_, hq⟩)
      · exact fun hp => hadded.absent (by rw [h.kept _ hp]; exact hp)
      · exact h.absent q hq
    · rw [List.map_cons, List.nodup_cons]
      refine ⟨fun hmem => ?_, h.nodup⟩
      obtain ⟨q, hq, hqp⟩ := List.mem_map.mp hmem
      exact hne _ (h.present q hq) hqp
  · cases hs

theorem handed_of_run {s₀ : AllocState} (h : s₀.Admissible) {ms : List Mem} {s : Handed}
    (hr : pageMachine.run ⟨s₀, []⟩ ms = some s) : s.Inv s₀ := by
  refine pageMachine.invariant (I := Handed.Inv s₀) (fun _ _ _ => handed_step) ?_ hr
  exact ⟨h, fun _ _ => rfl, by simp, by simp, List.nodup_nil⟩

/-! ### No two pages share anything -/

/-- Where the hardware finds the byte at a virtual address, with pages of 4 MB. -/
def translate (pd : PageDirectory) (va : UInt32) : Option UInt32 :=
  if IsPresent (pd (dirIndex va)) then some (UInt32.ofNat (frameOf (pd (dirIndex va)) * 2 ^ 22 + va.toNat % 2 ^ 22))
    else none

/-- **No aliasing**: virtual addresses with the same physical address are the same. -/
theorem translate_injective {s : AllocState} (h : s.Admissible) {va wa pa : UInt32}
    (hv : translate s.pageDirectory va = some pa) (hw : translate s.pageDirectory wa = some pa) : va = wa := by
  rw [translate, Option.ite_none_right_eq_some, Option.some.injEq] at hv hw
  obtain ⟨hvp, hv⟩ := hv
  obtain ⟨hwp, hw⟩ := hw
  have hfv := (s.pageDirectory (dirIndex va)).toNat_lt
  have hfw := (s.pageDirectory (dirIndex wa)).toNat_lt
  have heq := congrArg UInt32.toNat (hv.trans hw.symm)
  have hinj := h.injective (dirIndex va) (dirIndex wa) hvp hwp
  rw [frameOf, frameOf] at hinj heq
  rw [toNat_ofNat_of_lt (by omega), toNat_ofNat_of_lt (by omega)] at heq
  have hidx := congrArg Fin.val (hinj (by omega))
  rw [dirIndex_val, dirIndex_val] at hidx
  apply UInt32.toNat_inj.mp
  omega

/-- The directory `boot.asm` leaves behind: the kernel's page, then that of its stack. -/
def bootDirectory : PageDirectory := fun i => if i = 768 then 0x00000083 else if i = 769 then 0x00400083 else 0

theorem bootDirectory_present {i : Fin 1024} (h : IsPresent (bootDirectory i)) : i = 768 ∨ i = 769 := by
  rw [bootDirectory] at h
  split_ifs at h with h1 h2
  · exact Or.inl h1
  · exact Or.inr h2
  · exact absurd h (by decide)

/-- `alloc_init` sets the correspondence up. -/
theorem allocInit_admissible : (allocInit bootDirectory).Admissible := by
  have hkernel : frameOf (bootDirectory 768) = 0 := by decide
  have hstack : frameOf (bootDirectory 769) = 1 := by decide
  refine ⟨by decide, fun i hi => ?_, fun i j hi hj heq => ?_⟩
  · have hmarked : ∀ f, Marked (allocInit bootDirectory).frameBitmap f ↔
        f = 1 ∨ f = 0 ∨ Marked (fun _ => 0) f := fun f => by
      rw [allocInit, marked_bitmapSet, marked_bitmapSet]
      rfl
    rw [hmarked]
    rcases bootDirectory_present hi with rfl | rfl
    · exact Or.inr (Or.inl hkernel)
    · exact Or.inl hstack
  · have hne : frameOf (bootDirectory 768) ≠ frameOf (bootDirectory 769) := by rw [hkernel, hstack]; decide
    rcases bootDirectory_present hi with rfl | rfl <;> rcases bootDirectory_present hj with rfl | rfl
    · rfl
    · exact absurd heq hne
    · exact absurd heq.symm hne
    · rfl

/-- Two entries of the directory are of different pages on different frames. -/
def PageDirectory.Apart (pd : PageDirectory) (i j : Fin 1024) : Prop := i ≠ j ∧ frameOf (pd i) ≠ frameOf (pd j)

theorem AllocState.Admissible.apart {s : AllocState} (h : s.Admissible) {i j : Fin 1024}
    (hi : IsPresent (s.pageDirectory i)) (hj : IsPresent (s.pageDirectory j)) (hne : i ≠ j) :
    s.pageDirectory.Apart i j :=
  ⟨hne, fun heq => hne (h.injective i j hi hj heq)⟩

/-- **Pages do not overlap.** `alloc_init` sets up the correspondence of entries and
frames; from any state that has it, after any number of calls, a call adds one page and
keeps it, and no page handed out shares its entry or its frame with another, or with a
page that was present at the start. -/
theorem pages_apart :
    ((allocInit bootDirectory).Admissible ∧
      (∀ i, IsPresent (bootDirectory i) ↔ i = 768 ∨ i = 769) ∧
      frameOf (bootDirectory 768) = 0 ∧ frameOf (bootDirectory 769) = 1) ∧
    ∀ s₀ : AllocState, s₀.Admissible → ∀ ms s, pageMachine.run ⟨s₀, []⟩ ms = some s →
      (∀ m p t m', allocBlock s.alloc m = .ok (p, t, m') → PageAdded s.alloc p t ∧ t.Admissible) ∧
      s.pages.Pairwise (fun p q => s.alloc.pageDirectory.Apart (dirIndex p) (dirIndex q)) ∧
      ∀ i, IsPresent (s₀.pageDirectory i) → s.alloc.pageDirectory i = s₀.pageDirectory i ∧
        ∀ p ∈ s.pages, s.alloc.pageDirectory.Apart (dirIndex p) i := by
  refine ⟨⟨allocInit_admissible, fun i => ⟨bootDirectory_present, ?_⟩, by decide, by decide⟩, fun s₀ h₀ ms s hr => ?_⟩
  · rintro (rfl | rfl) <;> decide
  · have hinv := handed_of_run h₀ hr
    have hadm := hinv.admissible
    refine ⟨fun m p t m' hc => ⟨pageAdded_of_allocBlock hadm.aligned hc, admissible_of_allocBlock hadm hc⟩, ?_,
      fun i hi => ⟨hinv.kept i hi, fun p hp => ?_⟩⟩
    · exact (List.pairwise_map.mp hinv.nodup).imp_of_mem fun hp hq hne =>
        hadm.apart (hinv.present _ hp) (hinv.present _ hq) hne
    · have hpi : dirIndex p ≠ i := fun he => hinv.absent p hp (he ▸ hi)
      exact hadm.apart (hinv.present p hp) (by rw [hinv.kept i hi]; exact hi) hpi

theorem pages_apart_sample :
    ∃ s, pageMachine.run ⟨allocInit bootDirectory, []⟩ [fun _ => 1, fun _ => 2] = some s ∧
      s.pages = [0x800000, 0x400000] ∧ ∀ p ∈ s.pages, s.alloc.pageDirectory.Apart (dirIndex p) 768 := by
  have hpages : (pageMachine.run ⟨allocInit bootDirectory, []⟩ [fun _ => 1, fun _ => 2]).map Handed.pages =
      some [0x800000, 0x400000] := by
    decide +kernel
  obtain ⟨s, hs, hp⟩ := Option.map_eq_some_iff.mp hpages
  exact ⟨s, hs, hp, ((pages_apart.2 _ allocInit_admissible _ s hs).2.2 768 (by decide)).2⟩

end MoltarOS.Mm
