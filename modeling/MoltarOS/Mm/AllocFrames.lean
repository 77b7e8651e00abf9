import MoltarOS.Mm.Alloc

/-!
# Frames and memory

`alloc_block` maps pages to frames and never looks at `PHYSICAL_MEMORY_START` and `PHYSICAL_MEMORY_END`, which
`mm/alloc.c` declares.

## What is proved

* `Rising` — from `alloc_init` on, whatever the boot directory, the `n`-th page gets frame `n + 1`.
* `frames_in_memory_iff` — so all frames are memory exactly if the memory covers the frames from the third to that
  of the last page.
-/

namespace MoltarOS.Mm

open MoltarOS.Lib MoltarOS.Lib.Word

/-- The frame of a page that was handed out. -/
def Handed.frame (s : Handed) (p : UInt32) : ℕ := frameOf (s.alloc.pageDirectory (dirIndex p))

/-- The frame lies in the memory `[start, stop)`. -/
def FrameIn (start stop : UInt32) (f : ℕ) : Prop := start.toNat ≤ f * 2 ^ 22 ∧ (f + 1) * 2 ^ 22 ≤ stop.toNat

instance (start stop : UInt32) (f : ℕ) : Decidable (FrameIn start stop f) := inferInstanceAs (Decidable (_ ∧ _))

/-! ### Which frames are handed out -/

/-- **The frames are handed out in order**, the first two being taken. -/
structure Rising (s : Handed) : Prop where
  /-- The search starts at a page. -/
  aligned : s.alloc.virtualAddr.toNat % 2 ^ 22 = 0
  /-- The marked frames are the lowest. -/
  marked : ∀ f, Marked s.alloc.frameBitmap f ↔ f < 2 + s.pages.length
  /-- The pages are mapped. -/
  present : ∀ p ∈ s.pages, IsPresent (s.alloc.pageDirectory (dirIndex p))
  /-- They are on the frames from the third on. -/
  frames : ∀ f, (∃ p ∈ s.pages, s.frame p = f) ↔ 2 ≤ f ∧ f < 2 + s.pages.length

theorem rising_init (bootDirectory : PageDirectory) : Rising ⟨allocInit bootDirectory, []⟩ := by
  refine ⟨(by decide : PAGE_SIZE.toNat % 2 ^ 22 = 0), fun f => ?_, by simp, fun f => ?_⟩
  · have hone : (1 : UInt32).toNat = 1 := rfl
    have hzero : (0 : UInt32).toNat = 0 := rfl
    have hnone : ¬ Marked (fun _ => 0) f := by simp [Marked]
    rw [allocInit, marked_bitmapSet, marked_bitmapSet, hone, hzero, List.length_nil]
    simp only [hnone, or_false]
    omega
  · simp only [List.not_mem_nil, false_and, exists_false, List.length_nil, false_iff]
    omega

/-- A new page is on the lowest frame that is not marked. -/
theorem PageAdded.frame_eq {s t : AllocState} {p : UInt32} (h : PageAdded s p t) {n : ℕ}
    (hmarked : ∀ f, Marked s.frameBitmap f ↔ f < n) :
    frameOf (t.pageDirectory (dirIndex p)) = n := by
  apply le_antisymm
  · by_contra hgt
    exact absurd ((hmarked n).mp (h.lowest n (by omega))) (Nat.lt_irrefl n)
  · by_contra hlt
    exact h.unclaimed ((hmarked _).mpr (by omega))

theorem rising_step {s t : Handed} {m : Mem} (h : Rising s) (hs : pageMachine.step s m = some t) : Rising t := by
  simp only [pageMachine] at hs
  split at hs
  swap
  · cases hs
  next p u m' hc =>
  obtain rfl := Option.some.inj hs
  have hadded := pageAdded_of_allocBlock h.aligned hc
  have hnew := hadded.frame_eq h.marked
  have haligned := aligned_of_allocBlock h.aligned hc
  -- the entries of the older pages stay
  have hold : ∀ q ∈ s.pages, u.pageDirectory (dirIndex q) = s.alloc.pageDirectory (dirIndex q) := fun q hq =>
    hadded.entries _ fun he => hadded.absent (he ▸ h.present q hq)
  refine ⟨haligned, fun f => ?_, List.forall_mem_cons.mpr ⟨hadded.present, fun q hq => ?_⟩, fun f => ?_⟩
  · rw [hadded.bits, hnew, h.marked, List.length_cons]
    omega
  · rw [hold q hq]
    exact h.present q hq
  · have hrest : (∃ q ∈ s.pages, frameOf (u.pageDirectory (dirIndex q)) = f) ↔ 2 ≤ f ∧ f < 2 + s.pages.length := by
      rw [← h.frames f]
      exact exists_congr fun q => and_congr_right fun hq => by rw [hold q hq, Handed.frame]
    simp only [Handed.frame, List.exists_mem_cons_iff, hnew, hrest, List.length_cons]
    omega

theorem rising_of_run {bootDirectory : PageDirectory} {ms : List Mem} {s : Handed}
    (hr : pageMachine.run ⟨allocInit bootDirectory, []⟩ ms = some s) : Rising s ∧ s.pages.length = ms.length := by
  refine ⟨pageMachine.invariant (I := Rising) (fun _ _ _ => rising_step) (rising_init bootDirectory) hr, ?_⟩
  have hstep : ∀ s m t, pageMachine.step s m = some t → t.pages.length = s.pages.length + 1 := by
    intro s m t hs
    simp only [pageMachine] at hs
    split at hs
    · obtain rfl := Option.some.inj hs
      rfl
    · cases hs
  simpa using pageMachine.count_of_run hstep hr

/-! ### Which of them are memory -/

/-- **When the frames are memory.** After any number of calls from `alloc_init` on, the frames of the pages lie in the
memory `[start, stop)` exactly if there was no call, or the memory begins below the third frame and has
room for all. -/
theorem frames_in_memory_iff {bootDirectory : PageDirectory} {ms : List Mem} {s : Handed}
    (hr : pageMachine.run ⟨allocInit bootDirectory, []⟩ ms = some s) (start stop : UInt32) :
    (∀ p ∈ s.pages, FrameIn start stop (s.frame p)) ↔
      ms.length = 0 ∨ start.toNat ≤ 2 * 2 ^ 22 ∧ (2 + ms.length) * 2 ^ 22 ≤ stop.toNat := by
  obtain ⟨hrising, hlen⟩ := rising_of_run hr
  have hframes := hrising.frames
  rw [hlen] at hframes
  constructor
  · intro hall
    by_cases hzero : ms.length = 0
    · exact Or.inl hzero
    obtain ⟨p, hp, hfirst⟩ := (hframes 2).mpr (by omega)
    obtain ⟨q, hq, hlast⟩ := (hframes (ms.length + 1)).mpr (by omega)
    have h1 := hall p hp
    have h2 := hall q hq
    rw [hfirst, FrameIn] at h1
    rw [hlast, FrameIn] at h2
    omega
  · intro hcover p hp
    obtain ⟨h1, h2⟩ := (hframes _).mp ⟨p, hp, rfl⟩
    rw [FrameIn]
    omega

/-- On a machine with 16 MB of memory above the first, the first page is in it. -/
theorem frames_in_memory_sample :
    ∃ s, pageMachine.run ⟨allocInit bootDirectory, []⟩ [fun _ => 0] = some s ∧
      ∀ p ∈ s.pages, FrameIn 0x100000 0x1100000 (s.frame p) := by
  have hrun : (pageMachine.run ⟨allocInit bootDirectory, []⟩ [fun _ => 0]).map Handed.pages = some [0x400000] := by
    decide +kernel
  obtain ⟨s, hs, -⟩ := Option.map_eq_some_iff.mp hrun
  exact ⟨s, hs, (frames_in_memory_iff hs 0x100000 0x1100000).mpr (by decide)⟩

/-- On a machine with 8 MB of memory, the last 128 KB of them reserved, the first page is not. -/
theorem frames_beyond_memory :
    ∃ s, pageMachine.run ⟨allocInit bootDirectory, []⟩ [fun _ => 0] = some s ∧
      ∃ p ∈ s.pages, ¬ FrameIn 0x100000 0x7E0000 (s.frame p) := by
  have hrun : (pageMachine.run ⟨allocInit bootDirectory, []⟩ [fun _ => 0]).map (fun s => (s.pages, s.frame 0x400000)) =
      some ([0x400000], 2) := by
    decide +kernel
  obtain ⟨s, hs, hp⟩ := Option.map_eq_some_iff.mp hrun
  obtain ⟨hpages, hframe⟩ := Prod.mk.inj hp
  refine ⟨s, hs, 0x400000, by rw [hpages]; exact List.mem_singleton_self _, ?_⟩
  rw [hframe]
  decide

end MoltarOS.Mm
