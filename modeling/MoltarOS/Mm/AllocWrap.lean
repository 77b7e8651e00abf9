import MoltarOS.Mm.AllocSearch

/-!
# The page at address 0

`alloc_init` has the search start after the first page, "because the address 0x0 is commonly used for NULL". Each search
goes on where the last one ended, so that the first page is what it comes to last, once it has been around the
directory.

## What is proved

* `page_zero_iff` — the first page is never handed out exactly if the boot directory has it present, or if at most
  one of the other entries is present: then the frames run out just before.
-/

namespace MoltarOS.Mm

open MoltarOS.Lib MoltarOS.Lib.Word

variable {boot : PageDirectory}

/-- **The search has not come around**, as long as the first entry is not present: the entries behind it are. -/
structure Swept (s : Handed) : Prop where
  /-- The frames are handed out in order. -/
  rising : Rising s
  /-- The entries behind, all others if the search is at the first. -/
  behind : ¬ IsPresent (s.alloc.pageDirectory 0) → ∀ i ≠ 0,
    i < dirIndex s.alloc.virtualAddr ∨ dirIndex s.alloc.virtualAddr = 0 → IsPresent (s.alloc.pageDirectory i)

theorem swept_init (boot : PageDirectory) : Swept ⟨allocInit boot, []⟩ := by
  refine ⟨rising_init boot, fun _ i hi hbehind => ?_⟩
  have hstart : dirIndex (allocInit boot).virtualAddr = 1 := (by decide : dirIndex PAGE_SIZE = 1)
  rw [hstart] at hbehind
  have hval : i.val ≠ 0 := fun he => hi (Fin.ext he)
  rcases hbehind with hlt | hone
  · exact absurd (Fin.lt_def.mp hlt) (by change ¬ i.val < 1; omega)
  · exact absurd hone (by decide)

/-- What the search passes on its way to the entry it takes is present, and so is what is behind. -/
theorem Swept.below {s : Handed} {t : AllocState} {m m' : Mem} {p : UInt32} (h : Swept s)
    (hzero : ¬ IsPresent (s.alloc.pageDirectory 0)) (hc : allocBlock s.alloc m = .ok (p, t, m'))
    {i : Fin 1024} (hi : i ≠ 0) (hbelow : i < dirIndex p ∨ dirIndex p = 0) : IsPresent (s.alloc.pageDirectory i) := by
  obtain ⟨k, hk, hfirst, hp, -⟩ := allocBlock_first hc
  have hpval : (dirIndex p).val = ((dirIndex s.alloc.virtualAddr).val + k) % 1024 := by rw [hp, after_val]
  have hidx := (dirIndex s.alloc.virtualAddr).isLt
  by_cases hbehind : i < dirIndex s.alloc.virtualAddr ∨ dirIndex s.alloc.virtualAddr = 0
  · exact h.behind hzero i hi hbehind
  obtain ⟨hle, hne⟩ := not_or.mp hbehind
  rw [Fin.lt_def] at hle
  have hpos : (dirIndex s.alloc.virtualAddr).val ≠ 0 := fun he => hne (Fin.ext he)
  -- the search has not come around before it gets to the entry
  have hdist : i.val - (dirIndex s.alloc.virtualAddr).val < k := by
    rcases hbelow with hlt | hfirst
    · rw [Fin.lt_def, hpval] at hlt
      omega
    · have hval : (dirIndex p).val = 0 := congrArg Fin.val hfirst
      omega
  have hat : after (dirIndex s.alloc.virtualAddr) (i.val - (dirIndex s.alloc.virtualAddr).val) = i := by
    apply Fin.ext
    rw [after_val]
    omega
  have hpresent := hfirst.before _ hdist
  rwa [hat] at hpresent

theorem swept_step {s t : Handed} {m : Mem} (h : Swept s) (hs : pageMachine.step s m = some t) : Swept t := by
  obtain ⟨p, m', hc, -⟩ := pageMachine_step hs
  have hadded := pageAdded_of_allocBlock h.rising.aligned hc
  refine ⟨rising_step h.rising hs, fun hzero i hi hbehind => ?_⟩
  have hzero' : ¬ IsPresent (s.alloc.pageDirectory 0) := fun hp => hzero (hadded.isPresent hp)
  by_cases hip : i = dirIndex p
  · rw [hip]
    exact hadded.present
  obtain ⟨-, -, -, -, hnext⟩ := allocBlock_first hc
  refine hadded.isPresent (h.below hzero' hc hi (Or.inl ?_))
  have hval : i.val ≠ (dirIndex p).val := fun he => hip (Fin.ext he)
  have hp := (dirIndex p).isLt
  rw [hnext, Fin.lt_def, Fin.ext_iff, after_val] at hbehind
  change i.val < _ ∨ _ = 0 at hbehind
  rw [Fin.lt_def]
  omega

theorem swept_of_run {ms : List Mem} {s : Handed} (hr : pageMachine.run ⟨allocInit boot, []⟩ ms = some s) : Swept s :=
  pageMachine.invariant (I := Swept) (fun _ _ _ => swept_step) (swept_init boot) hr

/-! ### What is left -/

/-- Every page handed out is an entry more, and what was present still is. -/
structure Grown (s₀ : AllocState) (s : Handed) : Prop where
  /-- The search starts at a page. -/
  aligned : s.alloc.virtualAddr.toNat % 2 ^ 22 = 0
  /-- The number of entries. -/
  card : s.alloc.presentEntries.card = s₀.presentEntries.card + s.pages.length
  /-- The entries. -/
  present : ∀ i, IsPresent (s₀.pageDirectory i) → IsPresent (s.alloc.pageDirectory i)

theorem grown_init {s₀ : AllocState} (haligned : s₀.virtualAddr.toNat % 2 ^ 22 = 0) : Grown s₀ ⟨s₀, []⟩ := by
  refine ⟨haligned, ?_, fun _ => id⟩
  rw [List.length_nil, Nat.add_zero]

theorem grown_step {s₀ : AllocState} {s t : Handed} {m : Mem} (h : Grown s₀ s) (hs : pageMachine.step s m = some t) :
    Grown s₀ t := by
  obtain ⟨p, m', hc, hpages⟩ := pageMachine_step hs
  have hadded := pageAdded_of_allocBlock h.aligned hc
  refine ⟨aligned_of_allocBlock h.aligned hc, ?_, fun i hi => hadded.isPresent (h.present i hi)⟩
  rw [hadded.card_presentEntries, h.card, hpages, List.length_cons, Nat.add_assoc]

theorem grown_of_run {s₀ : AllocState} (haligned : s₀.virtualAddr.toNat % 2 ^ 22 = 0) {ms : List Mem} {s : Handed}
    (hr : pageMachine.run ⟨s₀, []⟩ ms = some s) : Grown s₀ s :=
  pageMachine.invariant (I := Grown s₀) (fun _ _ _ => grown_step) (grown_init haligned) hr

/-- When all entries but the first are present, there are 1023 at least. -/
theorem card_presentEntries_of_forall {s : AllocState} (hall : ∀ i ≠ 0, IsPresent (s.pageDirectory i)) :
    1023 ≤ s.presentEntries.card := by
  have hsub : Finset.univ.erase 0 ⊆ s.presentEntries := fun i hi =>
    mem_presentEntries.mpr (hall i (Finset.ne_of_mem_erase hi))
  have hcard : (Finset.univ.erase (0 : Fin 1024)).card = 1023 := by
    rw [Finset.card_erase_of_mem (Finset.mem_univ 0), Finset.card_fin]
  exact hcard ▸ Finset.card_le_card hsub

/-! ### Page 0 -/

/-- The first page is neither returned nor mapped, by any call from `alloc_init` on. -/
def NeverZero (boot : PageDirectory) : Prop :=
  ∀ ms s, pageMachine.run ⟨allocInit boot, []⟩ ms = some s → ∀ m p t m', allocBlock s.alloc m = .ok (p, t, m') →
    p ≠ 0 ∧ t.pageDirectory (dirIndex 0) = s.alloc.pageDirectory (dirIndex 0)

/-- A page at the first entry is the first page. -/
theorem eq_zero_of_dirIndex {p : UInt32} (haligned : p.toNat % 2 ^ 22 = 0) (hp : dirIndex p = 0) : p = 0 := by
  have hval : (dirIndex p).val = 0 := congrArg Fin.val hp
  rw [dirIndex_val] at hval
  apply UInt32.toNat_inj.mp
  change p.toNat = 0
  omega

/-- A page at another entry is not. -/
theorem PageAdded.ne_zero {s t : AllocState} {p : UInt32} (h : PageAdded s p t) (hp : dirIndex p ≠ 0) :
    p ≠ 0 ∧ t.pageDirectory (dirIndex 0) = s.pageDirectory (dirIndex 0) := by
  have hzero : dirIndex 0 = 0 := by decide
  refine ⟨?_, h.entries _ fun he => hp (he.symm.trans hzero)⟩
  rintro rfl
  exact hp hzero

/-- When two entries are present at boot, there are frames for the others, that of the first page as well. -/
theorem exists_zero (hzero : ¬ IsPresent (boot 0)) (htwo : 1 < (allocInit boot).presentEntries.card) :
    ∃ ms s, pageMachine.run ⟨allocInit boot, []⟩ ms = some s ∧ ∃ m t m', allocBlock s.alloc m = .ok (0, t, m') := by
  have hle := Finset.card_le_univ (allocInit boot).presentEntries
  rw [Fintype.card_fin] at hle
  obtain ⟨ms, s, hrun, hrising, p, t, hp, hc⟩ := @exists_run_to 0 (1024 - (allocInit boot).presentEntries.card) _
    (rising_init boot) hzero (by change (allocInit boot).presentEntries.card + _ = 1024; omega)
      (by rw [List.length_nil]; omega)
  obtain ⟨m', hc⟩ := hc fun _ => 0
  rw [eq_zero_of_dirIndex (pageAdded_of_allocBlock hrising.aligned hc).aligned hp] at hc
  exact ⟨ms, s, hrun, fun _ => 0, t, m', hc⟩

/-- **The first page is never handed out, exactly if** the boot directory has it present, or at most one of the other
entries: then there is no frame left when the search comes to it. -/
theorem page_zero_iff (boot : PageDirectory) : NeverZero boot ↔
    IsPresent (boot 0) ∨
      ∀ i j, i ≠ 0 → j ≠ 0 → IsPresent (boot i) → IsPresent (boot j) → i = j := by
  constructor
  · intro h
    by_contra hcon
    obtain ⟨hzero, hmany⟩ := not_or.mp hcon
    have htwo : 1 < (allocInit boot).presentEntries.card := by
      by_contra hone
      refine hmany fun i j _ _ hi hj => ?_
      exact Finset.card_le_one.mp (Nat.not_lt.mp hone) i (mem_presentEntries.mpr hi) j (mem_presentEntries.mpr hj)
    obtain ⟨ms, s, hrun, m, t, m', hc⟩ := exists_zero hzero htwo
    exact (h ms s hrun m 0 t m' hc).1 rfl
  · intro h ms s hrun m p t m' hc
    have hswept := swept_of_run hrun
    have hgrown : Grown (allocInit boot) s := grown_of_run (rising_init boot).aligned hrun
    have hadded := pageAdded_of_allocBlock hswept.rising.aligned hc
    refine hadded.ne_zero fun hp => ?_
    have hzero : ¬ IsPresent (s.alloc.pageDirectory 0) := hp ▸ hadded.absent
    rcases h with hboot | hone
    · exact hzero (hgrown.present 0 hboot)
    · -- all other entries are present, and with them all frames are marked
      have hfull := card_presentEntries_of_forall fun i hi => hswept.below hzero hc hi (Or.inr hp)
      have hfew : (allocInit boot).presentEntries.card ≤ 1 := by
        refine Finset.card_le_one.mpr fun i hi j hj => ?_
        rw [mem_presentEntries] at hi hj
        have hne : ∀ i, IsPresent ((allocInit boot).pageDirectory i) → i ≠ 0 := fun i hi he =>
          hzero (hgrown.present 0 (he ▸ hi))
        exact hone i j (hne i hi) (hne j hj) hi hj
      have hcard := hgrown.card
      have hlt := frameOf_lt (t.pageDirectory (dirIndex p))
      exact hadded.unclaimed ((hswept.rising.marked _).mpr (by omega))

/-- With the directory of `boot.asm`, where the identity mapping of the first page is gone by then, the first page is
handed out in the end. -/
theorem not_neverZero : ¬ NeverZero bootDirectory := by
  intro h
  have htwo : 1 < (allocInit bootDirectory).presentEntries.card := by
    rw [card_presentEntries_boot]
    exact Nat.one_lt_two
  obtain ⟨ms, s, hrun, m, t, m', hc⟩ := exists_zero (by decide : ¬ IsPresent (bootDirectory 0)) htwo
  exact (h ms s hrun m 0 t m' hc).1 rfl

end MoltarOS.Mm
