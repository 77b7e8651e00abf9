import MoltarOS.Lib.Relocation
import MoltarOS.Mm.Alloc

/-!
# Moving and copying stacks

`sched/task.c` relocates a stack twice. `task_init` moves the kernel's boot stack to its
own page (`move_stack`), and `thread_create` gives a child a copy of its parent's stack
(`copy_stack`) with registers to match. Both scan the slots and redirect the words that
look like pointers into the stack, so that saved frame pointers stay in the new one.

## What is proved

* `moveStack_faithful_iff` — `move_stack` redirects pointers relative to `esp` but copies
  the slots relative to `STACK_START`, so the move is faithful exactly when there is no
  pointer to redirect (or the stack fills its page).
* `copyStack_faithful` — the child's copy is faithful, and every chain of frames of the
  parent becomes one of the child.

The registers an `asm` statement reads are parameters here: `esp` is what
`mov %esp, …` gave in the function at hand. What calls leave below `esp` is not looked at.
-/

namespace MoltarOS.Sched

open MoltarOS.Lib MoltarOS.Lib.Word
open MoltarOS.Mm (PAGE_SIZE toNat_PAGE_SIZE)

/-! ### The code -/

/-- `task_t`, but for its place in the list. -/
structure Task where
  /-- Where the task goes on. -/
  eip : UInt32
  /-- Its stack pointer there. -/
  esp : UInt32
  /-- Its base pointer there. -/
  ebp : UInt32
  /-- The page of its stack. -/
  stackStart : UInt32
  /-- Its number. -/
  id : UInt32
  /-- The timer ticks left of its slice. -/
  ticks : UInt32
  deriving DecidableEq

/-- What `move_stack` leaves behind: the memory, the registers, and the value returned. -/
structure MovedStack where
  /-- The memory. -/
  mem : Mem
  /-- `new_esp`. -/
  esp : UInt32
  /-- `new_ebp`. -/
  ebp : UInt32
  /-- `new_stack`. -/
  stack : UInt32

/-- The page of the kernel's stack: the one after the kernel's own. -/
def kernelStack : UInt32 := PAGE_SIZE + 0xC0000000

/-- The iterations after which a loop over the slots would have passed every address. -/
def maxSlots : ℕ := 2 ^ 30

/-- `move_stack`. The slots are copied from `esp` as it is at first; `old_esp` and `old_ebp` are
read after the loop. -/
def moveStack (m : Mem) (stackStart esp oldEsp oldEbp : UInt32) : Option MovedStack :=
  let newStack := kernelStack
  let offset := newStack + PAGE_SIZE - (stackStart - esp)
  let redirect := fun word => if word < stackStart ∧ word > esp then newStack + (word - esp) else word
  (copyLoop redirect stackStart maxSlots m esp offset).map fun m' =>
    { mem := m'
      esp := newStack + PAGE_SIZE - (stackStart - oldEsp)
      ebp := newStack + PAGE_SIZE - (stackStart - oldEbp)
      stack := newStack }

/-- `copy_stack`, where `newStack` is the page that `alloc_block` returned. -/
def copyStack (m : Mem) (child parent : Task) (newStack esp : UInt32) : Option (Mem × Task) :=
  let offset := newStack + PAGE_SIZE - (parent.stackStart + PAGE_SIZE - esp)
  let redirect := fun word =>
    if word < parent.stackStart + PAGE_SIZE ∧ word > parent.stackStart
    then newStack + (word - parent.stackStart) else word
  (copyLoop redirect (parent.stackStart + PAGE_SIZE) maxSlots m esp offset).map fun m' =>
    (m', { child with stackStart := newStack })

/-- The part of `thread_create` in which the parent sets up `esp`, `ebp` and `eip` of the child. -/
def setupChild (child parent : Task) (esp ebp eip : UInt32) : Task :=
  let offset := child.stackStart - parent.stackStart
  { child with esp := offset + esp, ebp := offset + ebp, eip := eip }

/-! ### Moving the kernel's stack -/

/-- How far a slot of the boot stack moves. -/
def moveOffset (stackStart : UInt32) : UInt32 := kernelStack + PAGE_SIZE - stackStart

/-- A word that points between `lo` and `hi`. -/
def Between (lo hi w : UInt32) : Prop := lo < w ∧ w < hi

instance (lo hi w : UInt32) : Decidable (Between lo hi w) := inferInstanceAs (Decidable (_ ∧ _))

/-- **A faithful move**: slots, pointers, registers and chains of frames are all displaced alike. -/
structure MovedFaithfully (m : Mem) (stackStart esp oldEsp oldEbp : UInt32) (r : MovedStack) : Prop where
  /-- The slots, with the pointers into the stack redirected. -/
  slots : Relocated m r.mem (Slot esp stackStart) (Between esp stackStart) (moveOffset stackStart)
  /-- The stack pointer. -/
  esp_eq : r.esp = oldEsp + moveOffset stackStart
  /-- The base pointer. -/
  ebp_eq : r.ebp = oldEbp + moveOffset stackStart
  /-- The frames the saved frame pointers lead to. -/
  frames : ∀ k, (∀ j < k, Slot esp stackStart (link m oldEbp j)) →
    (∀ j < k, Between esp stackStart (link m oldEbp (j + 1))) →
    link r.mem r.ebp k = link m oldEbp k + moveOffset stackStart

section

variable (m : Mem) (stackStart esp oldEsp oldEbp : UInt32) (hesp : esp.toNat % 4 = 0)
  (hstart : stackStart.toNat % 4 = 0) (hlt : esp < stackStart)
  (hroom : stackStart.toNat + (stackStart.toNat - esp.toNat) ≤ 0xC0800000 ∨ 0xC0800000 ≤ esp.toNat)

include hesp hstart hlt hroom

/-- What `move_stack` does to each slot. -/
theorem moveStack_spec :
    ∃ r, moveStack m stackStart esp oldEsp oldEbp = some r ∧
      r.esp = oldEsp + moveOffset stackStart ∧ r.ebp = oldEbp + moveOffset stackStart ∧
      ∀ a, Slot esp stackStart a → r.mem.load32 (a + moveOffset stackStart) =
        if Between esp stackStart (m.load32 a) then kernelStack + (m.load32 a - esp) else m.load32 a := by
  have hstartlt := stackStart.toNat_lt
  rw [UInt32.lt_iff_toNat_lt] at hlt
  have hsize : (stackStart - esp).toNat = stackStart.toNat - esp.toNat := toNat_sub_of_le (by omega)
  have htop : (kernelStack + PAGE_SIZE).toNat = 0xC0800000 := by decide
  have hoffset : (kernelStack + PAGE_SIZE - (stackStart - esp)).toNat =
      0xC0800000 - (stackStart.toNat - esp.toNat) := by
    rw [toNat_sub_of_le (by omega), htop, hsize]
  obtain ⟨m', hm', hslots, -⟩ := copyLoop_spec
    (fun word => if word < stackStart ∧ word > esp then kernelStack + (word - esp) else word) m esp stackStart
    (kernelStack + PAGE_SIZE - (stackStart - esp)) maxSlots hesp hstart (by omega) (by rw [maxSlots]; omega)
    fun x h1 h2 => by
      by_contra hx
      rw [not_le, dist_lt_iff (by omega)] at hx
      omega
  refine ⟨_, by rw [moveStack, hm']; rfl, ?_, ?_, fun a ha => ?_⟩
  · rw [moveOffset]
    grind
  · rw [moveOffset]
    grind
  · have hdisp : kernelStack + PAGE_SIZE - (stackStart - esp) - esp = moveOffset stackStart := by
      rw [moveOffset]
      grind
    rw [hdisp] at hslots
    rw [hslots a ha]
    exact if_congr and_comm rfl rfl

/-- **When `move_stack` is faithful**: when no slot holds a pointer into the stack, or the slots
are as many as the page has, which is when both displacements agree. -/
theorem moveStack_faithful_iff :
    ∃ r, moveStack m stackStart esp oldEsp oldEbp = some r ∧
      (MovedFaithfully m stackStart esp oldEsp oldEbp r ↔
        (∀ a, Slot esp stackStart a → ¬ Between esp stackStart (m.load32 a)) ∨ stackStart - esp = PAGE_SIZE) := by
  obtain ⟨r, hr, hresp, hrebp, hslots⟩ := moveStack_spec m stackStart esp oldEsp oldEbp hesp hstart hlt hroom
  refine ⟨r, hr, fun h => ?_, fun h => ?_⟩
  · by_contra hne
    rw [not_or, not_forall] at hne
    obtain ⟨⟨a, hne⟩, hsize⟩ := hne
    rw [Classical.not_imp, not_not] at hne
    obtain ⟨ha, hptr⟩ := hne
    have hcode := hslots a ha
    rw [if_pos hptr, h.slots.pointer a ha hptr, moveOffset] at hcode
    apply hsize
    grind
  · have hslots' : Relocated m r.mem (Slot esp stackStart) (Between esp stackStart) (moveOffset stackStart) := by
      refine ⟨fun a ha hptr => ?_, fun a ha hptr => by rw [hslots a ha, if_neg hptr]⟩
      rcases h with h | h
      · exact absurd hptr (h a ha)
      · rw [hslots a ha, if_pos hptr, moveOffset]
        grind
    exact ⟨hslots', hresp, hrebp, fun k hS hP => by rw [hrebp]; exact hslots'.link hS hP⟩

end

/-- A boot stack of three words that are not between its ends: `esp` itself, `STACK_START`, and a small number. -/
def wordsStack : Mem :=
  Mem.store32 (Mem.store32 (Mem.store32 (fun _ => 0) 0xC0104FF4 0xC0104FF4) 0xC0104FF8 0xC0105000) 0xC0104FFC 7

/-- They are copied as they are to the end of the new page. -/
theorem moveStack_faithful_words :
    ∃ r, moveStack wordsStack 0xC0105000 0xC0104FF4 0xC0104FF4 0xC0104FFC = some r ∧
      MovedFaithfully wordsStack 0xC0105000 0xC0104FF4 0xC0104FF4 0xC0104FFC r ∧
      r.mem.load32 0xC07FFFF4 = 0xC0104FF4 ∧ r.mem.load32 0xC07FFFF8 = 0xC0105000 ∧ r.mem.load32 0xC07FFFFC = 7 := by
  obtain ⟨r, hr, hiff⟩ := moveStack_faithful_iff wordsStack 0xC0105000 0xC0104FF4 0xC0104FF4 0xC0104FFC
    (by decide) (by decide) (by decide) (Or.inl (by decide))
  have hwords : wordsStack.load32 0xC0104FF4 = 0xC0104FF4 ∧ wordsStack.load32 0xC0104FF8 = 0xC0105000 ∧
      wordsStack.load32 0xC0104FFC = 7 := by
    decide +kernel
  obtain ⟨hfirst, hsecond, hthird⟩ := hwords
  have hplain : ∀ a, Slot 0xC0104FF4 0xC0105000 a → ¬Between 0xC0104FF4 0xC0105000 (wordsStack.load32 a) := by
    rintro a ⟨hlo, hhi, haligned⟩
    change 0xC0104FF4 ≤ a.toNat at hlo
    change a.toNat < 0xC0105000 at hhi
    obtain rfl | rfl | rfl : a = 0xC0104FF4 ∨ a = 0xC0104FF8 ∨ a = 0xC0104FFC := by
      simp only [← UInt32.toNat_inj, UInt32.reduceToNat]
      omega
    · rw [hfirst]
      decide
    · rw [hsecond]
      decide
    · rw [hthird]
      decide
  have hmoved := hiff.mpr (Or.inl hplain)
  have hcopied : ∀ a, Slot 0xC0104FF4 0xC0105000 a → r.mem.load32 (a + moveOffset 0xC0105000) = wordsStack.load32 a :=
    fun a ha => hmoved.slots.other a ha (hplain a ha)
  refine ⟨r, hr, hmoved, ?_, ?_, ?_⟩
  · exact (hcopied 0xC0104FF4 ⟨by decide, by decide, by decide⟩).trans hfirst
  · exact (hcopied 0xC0104FF8 ⟨by decide, by decide, by decide⟩).trans hsecond
  · exact (hcopied 0xC0104FFC ⟨by decide, by decide, by decide⟩).trans hthird

/-- A boot stack of two slots, the first of which holds a saved frame pointer to the second. -/
def bootStack : Mem := Mem.store32 (fun _ => 0) 0xC0104FF8 0xC0104FFC

/-- The saved frame pointer `0xC0104FFC` becomes `0xC0400004`, near the bottom of the new page,
while the slot it points to goes to `0xC07FFFFC`, at its top. -/
theorem moveStack_unfaithful :
    ∃ r, moveStack bootStack 0xC0105000 0xC0104FF8 0xC0104FF8 0xC0104FF8 = some r ∧
      ¬ MovedFaithfully bootStack 0xC0105000 0xC0104FF8 0xC0104FF8 0xC0104FF8 r := by
  have hword : (moveStack bootStack 0xC0105000 0xC0104FF8 0xC0104FF8 0xC0104FF8).map
    (fun r => r.mem.load32 0xC07FFFF8) =
      some 0xC0400004 := by
    decide +kernel
  obtain ⟨r, hr, hw⟩ := Option.map_eq_some_iff.mp hword
  refine ⟨r, hr, fun h => ?_⟩
  have hslot : Slot 0xC0104FF8 0xC0105000 0xC0104FF8 := ⟨by decide, by decide, by decide⟩
  have hptr : Mem.load32 bootStack 0xC0104FF8 = 0xC0104FFC := by decide +kernel
  have hmoved := h.slots.pointer 0xC0104FF8 hslot (by rw [hptr]; decide)
  rw [hptr, show (0xC0104FF8 : UInt32) + moveOffset 0xC0105000 = 0xC07FFFF8 by decide, hw] at hmoved
  exact absurd hmoved (by decide)

/-! ### Copying a parent's stack -/

/-- The byte at `x` belongs to the page at `p`. -/
def InPage (p x : UInt32) : Prop := p.toNat ≤ x.toNat ∧ x.toNat < p.toNat + PAGE_SIZE.toNat

/-- Two pages have no byte in common. -/
def PagesApart (p q : UInt32) : Prop := p.toNat + PAGE_SIZE.toNat ≤ q.toNat ∨ q.toNat + PAGE_SIZE.toNat ≤ p.toNat

instance (p x : UInt32) : Decidable (InPage p x) := inferInstanceAs (Decidable (_ ∧ _))

instance (p q : UInt32) : Decidable (PagesApart p q) := inferInstanceAs (Decidable (_ ∨ _))

theorem PagesApart.symm {p q : UInt32} (h : PagesApart p q) : PagesApart q p := Or.symm h

theorem PagesApart.not_inPage {p q x : UInt32} (h : PagesApart p q) (hx : InPage p x) : ¬ InPage q x := by
  rw [PagesApart] at h
  rw [InPage] at hx ⊢
  omega

/-- What is displaced with its page stays as far into it. -/
theorem inPage_move {p q x : UInt32} (hq : q.toNat + PAGE_SIZE.toNat ≤ 2 ^ 32) (hx : InPage p x) :
    InPage q (x + (q - p)) := by
  rw [InPage, toNat_PAGE_SIZE] at hx ⊢
  rw [toNat_PAGE_SIZE] at hq
  have hsub : (x - p).toNat = x.toNat - p.toNat := toNat_sub_of_le hx.1
  have hmove : x + (q - p) = q + (x - p) := by grind
  rw [hmove, toNat_add_of_lt (by omega), hsub]
  omega

/-- **A faithful copy**: the slots of the parent are in the child's page, displaced by `d` with the
pointers into the parent's page redirected, and nothing changes outside the child's page. -/
structure CopiedFaithfully (m m' : Mem) (parent child : Task) (esp d : UInt32) : Prop where
  /-- The slots. -/
  slots : Relocated m m' (Slot esp (parent.stackStart + PAGE_SIZE))
    (Between parent.stackStart (parent.stackStart + PAGE_SIZE)) d
  /-- Outside the child's page nothing changes. -/
  frame : ∀ x, ¬ InPage child.stackStart x → m' x = m x

section

variable (m : Mem) (child parent : Task) (newStack esp : UInt32)
  (hpage : parent.stackStart.toNat + PAGE_SIZE.toNat < 2 ^ 32) (hstart : parent.stackStart.toNat % 4 = 0)
  (hesp : esp.toNat % 4 = 0) (hin : InPage parent.stackStart esp) (hnew : newStack.toNat + PAGE_SIZE.toNat ≤ 2 ^ 32)
  (hdisj : PagesApart parent.stackStart newStack)

include hpage hstart hesp hin hnew hdisj

/-- What `copy_stack` does to each slot. -/
theorem copyStack_spec :
    ∃ m', copyStack m child parent newStack esp = some (m', { child with stackStart := newStack }) ∧
      (∀ a, Slot esp (parent.stackStart + PAGE_SIZE) a → m'.load32 (a + (newStack - parent.stackStart)) =
        if Between parent.stackStart (parent.stackStart + PAGE_SIZE) (m.load32 a)
        then m.load32 a + (newStack - parent.stackStart) else m.load32 a) ∧
      ∀ x, ¬ InPage newStack x → m' x = m x := by
  rw [InPage, toNat_PAGE_SIZE] at hin
  rw [toNat_PAGE_SIZE] at hpage hnew
  have hstartlt := parent.stackStart.toNat_lt
  have htop : (parent.stackStart + PAGE_SIZE).toNat = parent.stackStart.toNat + 2 ^ 22 := by
    rw [toNat_add_of_lt (by rw [toNat_PAGE_SIZE]; exact hpage), toNat_PAGE_SIZE]
  have hdepth : (esp - parent.stackStart).toNat = esp.toNat - parent.stackStart.toNat := toNat_sub_of_le hin.1
  have hoff : newStack + PAGE_SIZE - (parent.stackStart + PAGE_SIZE - esp) = newStack + (esp - parent.stackStart) := by
    grind
  have hoffset : (newStack + (esp - parent.stackStart)).toNat =
      newStack.toNat + (esp.toNat - parent.stackStart.toNat) := by
    rw [toNat_add_of_lt (by omega), hdepth]
  -- a byte in reach of the copy lies in the new page
  have hreach : ∀ x, dist (newStack + (esp - parent.stackStart)) x < parent.stackStart.toNat + 2 ^ 22 - esp.toNat →
      InPage newStack x := fun x hx => by
    rw [dist_lt_iff (by omega)] at hx
    rw [InPage, toNat_PAGE_SIZE]
    omega
  obtain ⟨m', hm', hslots, hframe⟩ := copyLoop_spec
    (fun word => if word < parent.stackStart + PAGE_SIZE ∧ word > parent.stackStart
      then newStack + (word - parent.stackStart) else word)
    m esp (parent.stackStart + PAGE_SIZE) (newStack + (esp - parent.stackStart)) maxSlots hesp (by omega) (by omega)
    (by rw [maxSlots]; omega) fun x h1 h2 => by
      by_contra hx
      exact hdisj.not_inPage ⟨by omega, by rw [toNat_PAGE_SIZE]; omega⟩ (hreach x (by omega))
  refine ⟨m', by simp only [copyStack, hoff, hm', Option.map_some], fun a ha => ?_, fun x hx => hframe x ?_⟩
  · have hd : newStack + (esp - parent.stackStart) - esp = newStack - parent.stackStart := by grind
    have hw : newStack + (m.load32 a - parent.stackStart) = m.load32 a + (newStack - parent.stackStart) := by grind
    rw [hd] at hslots
    rw [hslots a ha, hw]
    exact if_congr and_comm rfl rfl
  · by_contra hlt
    exact hx (hreach x (by omega))

/-- **`copy_stack` and `thread_create` make a faithful copy**, and any chain of frames that stays in
the part copied is found again in the child, link by link and in its own page. The test for
pointers leaves out `stack_start` itself, which the chain must not come to. -/
theorem copyStack_faithful :
    ∃ m' child', copyStack m child parent newStack esp = some (m', child') ∧
      CopiedFaithfully m m' parent child' esp (newStack - parent.stackStart) ∧ child'.stackStart = newStack ∧
      ∀ espNow ebp eip,
        (setupChild child' parent espNow ebp eip).esp = espNow + (newStack - parent.stackStart) ∧
        (setupChild child' parent espNow ebp eip).ebp = ebp + (newStack - parent.stackStart) ∧
        ∀ k, (∀ j ≤ k, Slot esp (parent.stackStart + PAGE_SIZE) (link m ebp j)) →
          (∀ j < k, link m ebp (j + 1) ≠ parent.stackStart) →
          link m' (setupChild child' parent espNow ebp eip).ebp k = link m ebp k + (newStack - parent.stackStart) ∧
          InPage newStack (link m' (setupChild child' parent espNow ebp eip).ebp k) := by
  obtain ⟨m', hm', hslots, hframe⟩ := copyStack_spec m child parent newStack esp hpage hstart hesp hin hnew hdisj
  have hrel : Relocated m m' (Slot esp (parent.stackStart + PAGE_SIZE))
      (Between parent.stackStart (parent.stackStart + PAGE_SIZE)) (newStack - parent.stackStart) :=
    ⟨fun a ha hp => by rw [hslots a ha, if_pos hp], fun a ha hp => by rw [hslots a ha, if_neg hp]⟩
  refine ⟨m', _, hm', ⟨hrel, hframe⟩, rfl, fun espNow ebp eip => ?_⟩
  have hebp : (setupChild { child with stackStart := newStack } parent espNow ebp eip).ebp =
      ebp + (newStack - parent.stackStart) := UInt32.add_comm _ _
  refine ⟨UInt32.add_comm _ _, hebp, fun k hS hP => ?_⟩
  have hptr : ∀ j < k, Between parent.stackStart (parent.stackStart + PAGE_SIZE) (link m ebp (j + 1)) := fun j hj => by
    have hs := hS (j + 1) (by omega)
    have hne := hP j hj
    have h1 := hs.lo
    have h2 := hs.hi
    have hne' : (link m ebp (j + 1)).toNat ≠ parent.stackStart.toNat := fun he => hne (UInt32.toNat_inj.mp he)
    rw [InPage] at hin
    rw [Between, UInt32.lt_iff_toNat_lt, UInt32.lt_iff_toNat_lt]
    omega
  have hlink := hrel.link (fun j hj => hS j (by omega)) hptr
  rw [hebp, hlink]
  have hk := hS k le_rfl
  have h2 := hk.hi
  rw [toNat_add_of_lt hpage] at h2
  have hlow := hk.lo
  rw [InPage] at hin
  exact ⟨rfl, inPage_move hnew ⟨by omega, h2⟩⟩

end

/-- A task whose stack is the page at `0x400000`. -/
def sampleTask : Task := ⟨0, 0, 0, 0x400000, 0, 50⟩

/-- Two frames at the top of the parent's page, and the same two in the child's. -/
theorem copyStack_faithful_frames :
    ∃ m' child', copyStack (Mem.store32 (fun _ => 0) 0x7FFFF8 0x7FFFFC) sampleTask sampleTask 0x800000 0x7FFFF8 =
      some (m', child') ∧ link m' (setupChild child' sampleTask 0x7FFFF8 0x7FFFF8 0).ebp 1 = 0xBFFFFC := by
  obtain ⟨m', child', hcopy, -, -, hregs⟩ := copyStack_faithful (Mem.store32 (fun _ => 0) 0x7FFFF8 0x7FFFFC) sampleTask
    sampleTask 0x800000 0x7FFFF8 (by decide) (by decide) (by decide) ⟨by decide, by decide⟩ (by decide)
    (Or.inl (by decide))
  have hlink : ∀ j ≤ 1, link (Mem.store32 (fun _ => 0) 0x7FFFF8 0x7FFFFC) 0x7FFFF8 j =
      if j = 0 then 0x7FFFF8 else 0x7FFFFC := by
    decide +kernel
  have hchain := ((hregs 0x7FFFF8 0x7FFFF8 0).2.2 1 (fun j hj => by
    rw [hlink j hj]
    split_ifs <;> exact ⟨by decide, by decide, by decide⟩) fun j hj => by
    rw [hlink (j + 1) (by omega)]
    exact (by decide : (0x7FFFFC : UInt32) ≠ 0x400000)).1
  rw [hlink 1 le_rfl] at hchain
  exact ⟨m', child', hcopy, hchain⟩

/-- When the stack is full, a saved frame pointer to its last slot (`stack_start`) is not
redirected, and the child's chain leads into the parent's page. -/
theorem copyStack_unfaithful :
    ∃ m' child', copyStack (Mem.store32 (fun _ => 0) 0x400004 0x400000) sampleTask sampleTask 0x800000 0x400000 =
        some (m', child') ∧
      (∀ j ≤ 1, Slot 0x400000 0x800000 (link (Mem.store32 (fun _ => 0) 0x400004 0x400000) 0x400004 j)) ∧
      InPage sampleTask.stackStart (link m' (setupChild child' sampleTask 0x400000 0x400004 0).ebp 1) := by
  obtain ⟨m', hcopy, hslots, -⟩ := copyStack_spec (Mem.store32 (fun _ => 0) 0x400004 0x400000) sampleTask
    sampleTask 0x800000 0x400000 (by decide) (by decide) (by decide) ⟨by decide, by decide⟩ (by decide)
    (Or.inl (by decide))
  have hlink : ∀ j ≤ 1, link (Mem.store32 (fun _ => 0) 0x400004 0x400000) 0x400004 j =
      if j = 0 then 0x400004 else 0x400000 := by
    decide +kernel
  refine ⟨m', _, hcopy, fun j hj => ?_, ?_⟩
  · rw [hlink j hj]
    split_ifs <;> exact ⟨by decide, by decide, by decide⟩
  · have hword := hslots 0x400004 ⟨by decide, by decide, by decide⟩
    have hload := hlink 1 le_rfl
    rw [link_succ, link_zero, if_neg (by decide)] at hload
    rw [hload, if_neg (by decide)] at hword
    rw [link_succ, link_zero]
    have hebp : (setupChild { sampleTask with stackStart := 0x800000 } sampleTask 0x400000 0x400004 0).ebp =
        0x400004 + (0x800000 - sampleTask.stackStart) := by decide
    rw [hebp, hword]
    exact ⟨by decide, by decide⟩

end MoltarOS.Sched
