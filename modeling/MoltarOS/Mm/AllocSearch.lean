import MoltarOS.Mm.AllocFrames
import Mathlib.Data.Fintype.EquivFin

/-!
# The search for a page

The loop of `alloc_block` goes around the directory once, from `virtual_addr` on and over the end of the address
space, until it finds an entry that is not present.

## What is proved

* `alloc_search` — it looks at no entry twice and misses none, so that it fails only when all entries are present or all
  frames are marked. Where these are as many as those, as `alloc_init` leaves them, they run out together.
* `exists_run_to` — every entry that is not present is taken in the end, if there are frames.
-/

namespace MoltarOS.Mm

open MoltarOS.Lib MoltarOS.Lib.Word MoltarOS.Libc

/-! ### Around the directory -/

/-- The `k`-th entry from `i` on. -/
def after (i : Fin 1024) (k : ℕ) : Fin 1024 := ⟨(i.val + k) % 1024, Nat.mod_lt _ (by decide)⟩

@[simp] theorem after_val (i : Fin 1024) (k : ℕ) : (after i k).val = (i.val + k) % 1024 := rfl

theorem after_zero (i : Fin 1024) : after i 0 = i := Fin.ext (Nat.mod_eq_of_lt i.isLt)

theorem after_after (i : Fin 1024) (k l : ℕ) : after (after i k) l = after i (k + l) := by
  apply Fin.ext
  simp only [after_val]
  omega

/-- All entries are reached. -/
theorem exists_after (i j : Fin 1024) : ∃ k < 1024, after i k = j := by
  have hi := i.isLt
  have hj := j.isLt
  refine ⟨(j.val + 1024 - i.val) % 1024, Nat.mod_lt _ (by decide), Fin.ext ?_⟩
  simp only [after_val]
  omega

/-- None is reached twice. -/
theorem nodup_after (i : Fin 1024) (n : ℕ) (hn : n ≤ 1024) : ((List.range n).map (after i)).Nodup := by
  refine (List.nodup_map_iff_inj_on List.nodup_range).mpr fun j hj k hk heq => ?_
  have hval := congrArg Fin.val heq
  rw [List.mem_range] at hj hk
  simp only [after_val] at hval
  omega

/-- `virtual_addr += PAGE_SIZE` goes on to the next entry, over the end of the address space as well. -/
theorem dirIndex_add (va : UInt32) : dirIndex (va + PAGE_SIZE) = after (dirIndex va) 1 := by
  have hlt := va.toNat_lt
  apply Fin.ext
  rw [after_val, dirIndex_val, dirIndex_val, UInt32.toNat_add, toNat_PAGE_SIZE]
  omega

/-! ### The search -/

/-- The loop of `alloc_block`, with the entries that it examines. -/
def allocSearch (s : AllocState) : ℕ → List (Fin 1024) × Except String AllocState
  | 0 => ([], .error "Could not find a free virtual address!")
  | n + 1 =>
    let idx := dirIndex s.virtualAddr
    if IsPresent (s.pageDirectory idx) then
      let (idxs, result) := allocSearch { s with virtualAddr := s.virtualAddr + PAGE_SIZE } n
      (idx :: idxs, result)
    else
      let frameIdx := firstFreeFrame s.frameBitmap
      ([idx],
        if frameIdx = PAGE_ERR then .error "Could not find a free physical address!"
        else .ok { s with
          frameBitmap := bitmapSet s.frameBitmap frameIdx
          pageDirectory := Function.update s.pageDirectory idx (pageEntry frameIdx) })

/-- It is the loop. -/
theorem allocSearch_snd (s : AllocState) (n : ℕ) : (allocSearch s n).2 = allocLoop s n := by
  induction n generalizing s with
  | zero => rfl
  | succ n ih =>
    simp only [allocSearch, allocLoop]
    split_ifs
    · exact ih _
    · rfl
    · rfl

/-- The `k`-th entry is the first that is not present. -/
structure AllocState.FirstAbsent (s : AllocState) (k : ℕ) : Prop where
  /-- Those before it are. -/
  before : ∀ j < k, IsPresent (s.pageDirectory (after (dirIndex s.virtualAddr) j))
  /-- It is not. -/
  absent : ¬ IsPresent (s.pageDirectory (after (dirIndex s.virtualAddr) k))

/-- The search examines one entry after the other, up to the first that is not present. -/
theorem allocSearch_spec (s : AllocState) (n : ℕ) :
    ((∀ k < n, IsPresent (s.pageDirectory (after (dirIndex s.virtualAddr) k))) ∧
      (allocSearch s n).1 = (List.range n).map (after (dirIndex s.virtualAddr)) ∧
      (allocSearch s n).2 = .error "Could not find a free virtual address!") ∨
    ∃ k < n, s.FirstAbsent k ∧ (allocSearch s n).1 = (List.range (k + 1)).map (after (dirIndex s.virtualAddr)) ∧
      (firstFreeFrame s.frameBitmap = PAGE_ERR ∧
        (allocSearch s n).2 = .error "Could not find a free physical address!" ∨
        firstFreeFrame s.frameBitmap ≠ PAGE_ERR ∧
          ∃ t, (allocSearch s n).2 = .ok t ∧ dirIndex t.virtualAddr = after (dirIndex s.virtualAddr) k) := by
  have hrange : ∀ (i : Fin 1024) (k : ℕ), (List.range (k + 1)).map (after i) =
      i :: (List.range k).map (after (after i 1)) := by
    intro i k
    rw [List.range_succ_eq_map, List.map_cons, List.map_map, after_zero]
    refine congrArg _ (List.map_congr_left fun j _ => ?_)
    rw [Function.comp_apply, after_after, Nat.add_comm 1 j]
  induction n generalizing s with
  | zero => exact Or.inl ⟨fun k hk => absurd hk (Nat.not_lt_zero k), rfl, rfl⟩
  | succ n ih =>
    by_cases hpresent : IsPresent (s.pageDirectory (dirIndex s.virtualAddr))
    · let next : AllocState := { s with virtualAddr := s.virtualAddr + PAGE_SIZE }
      have hstep : allocSearch s (n + 1) =
          (dirIndex s.virtualAddr :: (allocSearch next n).1, (allocSearch next n).2) := by
        rw [allocSearch, if_pos hpresent]
      have hnext : dirIndex next.virtualAddr = after (dirIndex s.virtualAddr) 1 := dirIndex_add _
      -- an entry is the one that the search is at, or comes after the next
      have hbefore : ∀ k, (∀ j < k, IsPresent (s.pageDirectory (after (after (dirIndex s.virtualAddr) 1) j))) →
          ∀ j < k + 1, IsPresent (s.pageDirectory (after (dirIndex s.virtualAddr) j)) := by
        intro k hall j hj
        cases j with
        | zero => exact (after_zero _).symm ▸ hpresent
        | succ j =>
          have hj' := hall j (by omega)
          rwa [after_after, Nat.add_comm 1 j] at hj'
      rw [hstep, hrange]
      rcases ih next with ⟨hall, hlist, hresult⟩ | ⟨k, hk, hfirst, hlist, hresult⟩
      · left
        rw [hnext] at hall hlist
        exact ⟨hbefore n hall, congrArg _ hlist, hresult⟩
      · right
        have hbefore' := hfirst.before
        have habsent := hfirst.absent
        rw [hnext] at hbefore' habsent hlist hresult
        rw [after_after, Nat.add_comm 1 k] at habsent hresult
        refine ⟨k + 1, by omega, ⟨hbefore k hbefore', habsent⟩, ?_, hresult⟩
        rw [hlist, hrange _ (k + 1)]
    · right
      refine ⟨0, Nat.succ_pos n, ⟨fun j hj => absurd hj (Nat.not_lt_zero j), (after_zero _).symm ▸ hpresent⟩, ?_, ?_⟩
      · rw [allocSearch, if_neg hpresent, hrange]
        rfl
      · rw [allocSearch, if_neg hpresent]
        by_cases herr : firstFreeFrame s.frameBitmap = PAGE_ERR
        · exact Or.inl ⟨herr, if_pos herr⟩
        · exact Or.inr ⟨herr, _, if_neg herr, (after_zero _).symm⟩

/-! ### One call -/

/-- How a call ends, by what is left. -/
theorem allocBlock_cases (s : AllocState) (m : Mem) :
    ((∀ i, IsPresent (s.pageDirectory i)) ∧ allocBlock s m = .error "Could not find a free virtual address!") ∨
    (∃ k < 1024, s.FirstAbsent k ∧
      ((∀ f < 1024, Marked s.frameBitmap f) ∧ allocBlock s m = .error "Could not find a free physical address!" ∨
        (∃ f < 1024, ¬ Marked s.frameBitmap f) ∧ ∃ p t m', allocBlock s m = .ok (p, t, m') ∧
          dirIndex p = after (dirIndex s.virtualAddr) k ∧ dirIndex t.virtualAddr = after (dirIndex p) 1)) := by
  have hsearch := allocSearch_spec s 1024
  rw [allocSearch_snd] at hsearch
  rcases hsearch with ⟨hall, -, hloop⟩ | ⟨k, hk, hfirst, -, hresult⟩
  · left
    refine ⟨fun i => ?_, by rw [allocBlock, hloop]; rfl⟩
    obtain ⟨k, hk, rfl⟩ := exists_after (dirIndex s.virtualAddr) i
    exact hall k hk
  · refine Or.inr ⟨k, hk, hfirst, ?_⟩
    rcases hresult with ⟨herr, hloop⟩ | ⟨hok, u, hloop, hidx⟩
    · left
      refine ⟨?_, by rw [allocBlock, hloop]; rfl⟩
      rcases firstFreeFrame_spec s.frameBitmap with ⟨hlt, -, -⟩ | ⟨-, hall⟩
      · rw [herr] at hlt
        exact absurd hlt (by decide)
      · exact hall
    · right
      obtain ⟨hlt, hclear, -⟩ := (firstFreeFrame_spec s.frameBitmap).resolve_right fun h => hok h.1
      refine ⟨⟨_, hlt, hclear⟩, u.virtualAddr, { u with virtualAddr := u.virtualAddr + PAGE_SIZE },
        memset m u.virtualAddr 0 PAGE_SIZE, ?_, hidx, dirIndex_add _⟩
      rw [allocBlock, hloop]
      rfl

/-- Where the page is that a call returns, and where the next search starts. -/
theorem allocBlock_first {s t : AllocState} {m m' : Mem} {p : UInt32} (h : allocBlock s m = .ok (p, t, m')) :
    ∃ k < 1024, s.FirstAbsent k ∧ dirIndex p = after (dirIndex s.virtualAddr) k ∧
      dirIndex t.virtualAddr = after (dirIndex p) 1 := by
  rcases allocBlock_cases s m with ⟨-, herr⟩ | ⟨k, hk, hfirst, ⟨-, herr⟩ | ⟨-, q, u, m'', hok, hp, ht⟩⟩
  · cases herr.symm.trans h
  · cases herr.symm.trans h
  · obtain ⟨rfl, rfl, -⟩ : q = p ∧ u = t ∧ m'' = m' := by
      have heq := Except.ok.inj (hok.symm.trans h)
      simpa using heq
    exact ⟨k, hk, hfirst, hp, ht⟩

/-- The page does not depend on what the memory holds. -/
theorem allocBlock_mem {s t : AllocState} {m m' : Mem} {p : UInt32} (h : allocBlock s m = .ok (p, t, m')) (n : Mem) :
    ∃ n', allocBlock s n = .ok (p, t, n') := by
  obtain ⟨u, hu, rfl, rfl, -⟩ := allocBlock_eq_ok h
  exact ⟨memset n u.virtualAddr 0 PAGE_SIZE, by rw [allocBlock, hu]; rfl⟩

/-! ### What is left -/

/-- The entries that are present. -/
def AllocState.presentEntries (s : AllocState) : Finset (Fin 1024) := {i | IsPresent (s.pageDirectory i)}

/-- The frames that are marked. -/
def AllocState.markedFrames (s : AllocState) : Finset (Fin 1024) := {f | Marked s.frameBitmap f.val}

@[simp] theorem mem_presentEntries {s : AllocState} {i : Fin 1024} :
    i ∈ s.presentEntries ↔ IsPresent (s.pageDirectory i) := by
  rw [AllocState.presentEntries, Finset.mem_filter, and_iff_right (Finset.mem_univ i)]

@[simp] theorem mem_markedFrames {s : AllocState} {f : Fin 1024} : f ∈ s.markedFrames ↔ Marked s.frameBitmap f.val := by
  rw [AllocState.markedFrames, Finset.mem_filter, and_iff_right (Finset.mem_univ f)]

/-- The present entries and the marked frames are in one-to-one correspondence. -/
def AllocState.Corresponds (s : AllocState) : Prop := Nonempty ({i // i ∈ s.presentEntries} ≃ {f // f ∈ s.markedFrames})

theorem corresponds_iff {s : AllocState} : s.Corresponds ↔ s.presentEntries.card = s.markedFrames.card := by
  rw [AllocState.Corresponds, ← Fintype.card_eq, Fintype.card_coe, Fintype.card_coe]

section Added

variable {s t : AllocState} {p : UInt32}

theorem frameOf_lt (e : UInt32) : frameOf e < 1024 := by
  have hlt := e.toNat_lt
  rw [frameOf]
  omega

/-- A page more is an entry more. -/
theorem PageAdded.card_presentEntries (h : PageAdded s p t) : t.presentEntries.card = s.presentEntries.card + 1 := by
  have hinsert : t.presentEntries = insert (dirIndex p) s.presentEntries := by
    ext i
    rw [Finset.mem_insert, mem_presentEntries, mem_presentEntries]
    by_cases hi : i = dirIndex p
    · rw [hi]
      exact iff_of_true h.present (Or.inl rfl)
    · rw [h.entries i hi, or_iff_right hi]
  rw [hinsert, Finset.card_insert_of_notMem (by rw [mem_presentEntries]; exact h.absent)]

/-- And a frame more. -/
theorem PageAdded.card_markedFrames (h : PageAdded s p t) : t.markedFrames.card = s.markedFrames.card + 1 := by
  let new : Fin 1024 := ⟨frameOf (t.pageDirectory (dirIndex p)), frameOf_lt _⟩
  have hinsert : t.markedFrames = insert new s.markedFrames := by
    ext f
    rw [Finset.mem_insert, mem_markedFrames, mem_markedFrames, h.bits, Fin.ext_iff]
  rw [hinsert, Finset.card_insert_of_notMem (by rw [mem_markedFrames]; exact h.unclaimed)]

/-- What is present stays present. -/
theorem PageAdded.isPresent (h : PageAdded s p t) {i : Fin 1024} (hi : IsPresent (s.pageDirectory i)) :
    IsPresent (t.pageDirectory i) := by
  rw [h.entries i fun he => h.absent (he ▸ hi)]
  exact hi

end Added

/-- What a step of the page allocator is. -/
theorem pageMachine_step {s t : Handed} {m : Mem} (h : pageMachine.step s m = some t) :
    ∃ p m', allocBlock s.alloc m = .ok (p, t.alloc, m') ∧ t.pages = p :: s.pages := by
  simp only [pageMachine] at h
  split at h
  · next p u m' hc =>
    obtain rfl := Option.some.inj h
    exact ⟨p, m', hc, rfl⟩
  · cases h

/-- There are as many frames left as entries. -/
structure Handed.Balanced (s : Handed) : Prop where
  /-- The search starts at a page. -/
  aligned : s.alloc.virtualAddr.toNat % 2 ^ 22 = 0
  /-- As many are taken. -/
  corresponds : s.alloc.Corresponds

theorem balanced_step {s t : Handed} {m : Mem} (h : s.Balanced) (hs : pageMachine.step s m = some t) : t.Balanced := by
  obtain ⟨p, m', hc, -⟩ := pageMachine_step hs
  have hadded := pageAdded_of_allocBlock h.aligned hc
  refine ⟨aligned_of_allocBlock h.aligned hc, ?_⟩
  rw [corresponds_iff, hadded.card_presentEntries, hadded.card_markedFrames, corresponds_iff.mp h.corresponds]

theorem card_eq_iff (u : Finset (Fin 1024)) : u.card = 1024 ↔ ∀ i, i ∈ u := by
  rw [← Finset.eq_univ_iff_forall, ← Finset.card_eq_iff_eq_univ, Fintype.card_fin]

/-- Where there are as many frames as entries, all of the ones are taken when all of the others are. -/
theorem AllocState.Corresponds.all_iff {s : AllocState} (h : s.Corresponds) :
    (∀ i, IsPresent (s.pageDirectory i)) ↔ ∀ f < 1024, Marked s.frameBitmap f := by
  have hentries : s.presentEntries.card = 1024 ↔ ∀ i, IsPresent (s.pageDirectory i) := by
    simp only [card_eq_iff, mem_presentEntries]
  have hframes : s.markedFrames.card = 1024 ↔ ∀ f < 1024, Marked s.frameBitmap f := by
    simp only [card_eq_iff, mem_markedFrames]
    exact ⟨fun hall f hf => hall ⟨f, hf⟩, fun hall f => hall f.val f.isLt⟩
  rw [← hentries, ← hframes, corresponds_iff.mp h]

/-- Two entries of the boot directory are present. -/
theorem card_presentEntries_boot : (allocInit bootDirectory).presentEntries.card = 2 := by
  have hentries : (allocInit bootDirectory).presentEntries = {768, 769} := by
    ext i
    rw [mem_presentEntries, Finset.mem_insert, Finset.mem_singleton]
    refine ⟨bootDirectory_present, ?_⟩
    rintro (rfl | rfl) <;> decide
  rw [hentries]
  decide

/-- `alloc_init` marks two frames as well. -/
theorem allocInit_corresponds : (allocInit bootDirectory).Corresponds := by
  have hframes : (allocInit bootDirectory).markedFrames = {0, 1} := by
    ext f
    rw [mem_markedFrames, (rising_init bootDirectory).marked, Finset.mem_insert, Finset.mem_singleton,
      Fin.ext_iff, Fin.ext_iff]
    change f.val < 2 ↔ f.val = 0 ∨ f.val = 1
    omega
  rw [corresponds_iff, card_presentEntries_boot, hframes]
  decide

/-- **Every page is handed out in the end**, as long as there are as many frames as entries. -/
theorem exists_run_to {i : Fin 1024} {d : ℕ} {s : Handed} (h : Rising s) (hi : ¬ IsPresent (s.alloc.pageDirectory i))
    (hd : s.alloc.presentEntries.card + d = 1024) (hroom : s.pages.length + d ≤ 1022) :
    ∃ ms t, pageMachine.run s ms = some t ∧ Rising t ∧
      ∃ p u, dirIndex p = i ∧ ∀ m, ∃ m', allocBlock t.alloc m = .ok (p, u, m') := by
  induction d generalizing s with
  | zero =>
    rw [Nat.add_zero, card_eq_iff] at hd
    exact absurd (mem_presentEntries.mp (hd i)) hi
  | succ d ih =>
    have hfree : ¬ Marked s.alloc.frameBitmap (2 + s.pages.length) := by
      rw [h.marked]
      exact Nat.lt_irrefl _
    rcases allocBlock_cases s.alloc (fun _ => 0) with ⟨hall, -⟩ | ⟨k, -, -, ⟨hall, -⟩ | ⟨-, p, u, m', hc, -, -⟩⟩
    · exact absurd (hall i) hi
    · exact absurd (hall _ (by omega)) hfree
    by_cases hp : dirIndex p = i
    · exact ⟨[], s, rfl, h, p, u, hp, allocBlock_mem hc⟩
    · have hstep : pageMachine.step s (fun _ => 0) = some ⟨u, p :: s.pages⟩ := by
        simp only [pageMachine, hc]
      have hadded := pageAdded_of_allocBlock h.aligned hc
      have hi' : ¬ IsPresent (u.pageDirectory i) := by
        rw [hadded.entries i fun he => hp he.symm]
        exact hi
      have hcard := hadded.card_presentEntries
      obtain ⟨ms, t, hrun, hrest⟩ := @ih ⟨u, p :: s.pages⟩ (rising_step h hstep) hi'
        (by change u.presentEntries.card + d = 1024; omega) (by rw [List.length_cons]; omega)
      exact ⟨_, t, pageMachine.run_cons.mpr ⟨_, hstep, hrun⟩, hrest⟩

/-- **The search for a page** looks at no entry twice. It returns a page if an entry is not present and a frame is
not marked, so that either panic means what it says. And where the present entries and the marked frames are in
one-to-one correspondence, they run out at the same call: so it is from `alloc_init` on. -/
theorem alloc_search {s : AllocState} (h : s.virtualAddr.toNat % 2 ^ 22 = 0) (m : Mem) :
    ((allocSearch s 1024).2 = allocLoop s 1024 ∧ (allocSearch s 1024).1.Nodup) ∧
    ((∃ i, ¬ IsPresent (s.pageDirectory i)) → (∃ f < 1024, ¬ Marked s.frameBitmap f) → ∃ r, allocBlock s m = .ok r) ∧
    (allocBlock s m = .error "Could not find a free virtual address!" → ∀ i, IsPresent (s.pageDirectory i)) ∧
    (allocBlock s m = .error "Could not find a free physical address!" → ∀ f < 1024, Marked s.frameBitmap f) ∧
    (s.Corresponds → ∀ ms t, pageMachine.run ⟨s, []⟩ ms = some t →
      ((∀ i, IsPresent (t.alloc.pageDirectory i)) ↔ ∀ f < 1024, Marked t.alloc.frameBitmap f)) ∧
    (allocInit bootDirectory).Corresponds := by
  refine ⟨⟨allocSearch_snd s 1024, ?_⟩, ?_, ?_, ?_, ?_, allocInit_corresponds⟩
  · rcases allocSearch_spec s 1024 with ⟨-, hlist, -⟩ | ⟨k, hk, -, hlist, -⟩
    · rw [hlist]
      exact nodup_after _ 1024 le_rfl
    · rw [hlist]
      exact nodup_after _ (k + 1) hk
  · rintro ⟨i, hi⟩ ⟨f, hf, hclear⟩
    rcases allocBlock_cases s m with ⟨hall, -⟩ | ⟨k, -, -, ⟨hall, -⟩ | ⟨-, p, t, m', hok, -⟩⟩
    · exact absurd (hall i) hi
    · exact absurd (hall f hf) hclear
    · exact ⟨_, hok⟩
  · intro herr
    rcases allocBlock_cases s m with ⟨hall, -⟩ | ⟨k, -, -, ⟨-, hphys⟩ | ⟨-, p, t, m', hok, -⟩⟩
    · exact hall
    · exact absurd (Except.error.inj (hphys.symm.trans herr)) (by decide)
    · cases hok.symm.trans herr
  · intro herr
    rcases allocBlock_cases s m with ⟨-, hvirt⟩ | ⟨k, -, -, ⟨hall, -⟩ | ⟨-, p, t, m', hok, -⟩⟩
    · exact absurd (Except.error.inj (hvirt.symm.trans herr)) (by decide)
    · exact hall
    · cases hok.symm.trans herr
  · intro hcorr ms t hr
    have hstart : (Handed.mk s []).Balanced := ⟨h, hcorr⟩
    exact (pageMachine.invariant (fun _ _ _ => balanced_step) hstart hr).corresponds.all_iff

/-- The first search, from `alloc_init` on. -/
theorem alloc_search_sample : (allocSearch (allocInit bootDirectory) 1024).1.Nodup ∧
    ∃ r, allocBlock (allocInit bootDirectory) (fun _ => 0) = .ok r := by
  have hsearch := alloc_search (s := allocInit bootDirectory) (by decide) (fun _ => 0)
  exact ⟨hsearch.1.2, hsearch.2.1 ⟨0, by decide⟩ ⟨2, by decide, by decide⟩⟩

end MoltarOS.Mm
