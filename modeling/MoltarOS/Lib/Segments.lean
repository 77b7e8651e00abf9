import Mathlib.Data.Finset.Card
import Mathlib.Data.Set.Insert
import Mathlib.Order.Interval.Finset.Nat

/-!
# Runs of equal labels

Cells `0 .. hi - 1` carry labels, one of which means free. A set of segments *tiles*
the labelling when its members are exactly the maximal runs of one label from cell
`lo` on: every segment has one label, not the free one, and the cells beside it carry
another. Segments are never stored; they are recovered from the labels alone, which
is possible because adjacent segments differ in their labels.

## What is proved

* `Tiles.eq_of_mem` — two segments that share a cell are the same segment.
* `Tiles.insert` — labelling a run of free cells with a label unlike its neighbours'
  adds a segment.
* `Tiles.remove` — freeing the cells of a segment removes it, and no other.
* `usedCells_fill`, `usedCells_clear` — what these do to the number of cells in use.
-/

namespace MoltarOS.Lib

universe u

/-- The cells `start .. start + len - 1`. -/
@[ext]
structure Seg where
  /-- The first cell. -/
  start : ℕ
  /-- How many cells. -/
  len : ℕ

/-- The cell after the last. -/
def Seg.stop (s : Seg) : ℕ := s.start + s.len

instance : Membership ℕ Seg := ⟨fun s k => s.start ≤ k ∧ k < s.stop⟩

theorem Seg.mem_iff {s : Seg} {k : ℕ} : k ∈ s ↔ s.start ≤ k ∧ k < s.start + s.len := Iff.rfl

instance (k : ℕ) (s : Seg) : Decidable (k ∈ s) :=
  inferInstanceAs (Decidable (s.start ≤ k ∧ k < s.stop))

variable {α : Type u}

/-- Relabel the cells of a segment. -/
def relabel (lab : ℕ → α) (s : Seg) (v : α) : ℕ → α := fun k => if k ∈ s then v else lab k

theorem relabel_of_mem (lab : ℕ → α) {s : Seg} (v : α) {k : ℕ} (h : k ∈ s) : relabel lab s v k = v :=
  if_pos h

theorem relabel_of_not_mem (lab : ℕ → α) {s : Seg} (v : α) {k : ℕ} (h : k ∉ s) :
    relabel lab s v k = lab k :=
  if_neg h

/-- A run of cells with a property ends somewhere. -/
theorem exists_run_end {P : ℕ → Prop} {lo hi : ℕ} (hlo : lo < hi) (hP : P lo) :
    ∃ stop, lo < stop ∧ stop ≤ hi ∧ (∀ k, lo ≤ k → k < stop → P k) ∧ (stop < hi → ¬ P stop) := by
  induction hi, hlo using Nat.le_induction with
  | base =>
    refine ⟨lo + 1, Nat.lt_succ_self lo, le_rfl, fun k h1 h2 => ?_, fun h => absurd h (Nat.lt_irrefl _)⟩
    rwa [Nat.le_antisymm (Nat.le_of_lt_succ h2) h1]
  | succ hi hle ih =>
    obtain ⟨stop, h1, h2, h3, h4⟩ := ih
    by_cases hend : stop = hi ∧ P hi
    · -- the run goes on through cell `hi`
      obtain ⟨rfl, hPhi⟩ := hend
      refine ⟨stop + 1, Nat.lt_succ_of_lt h1, le_rfl, fun k hk1 hk2 => ?_, fun h => absurd h (Nat.lt_irrefl _)⟩
      rcases Nat.lt_succ_iff_lt_or_eq.mp hk2 with hk | rfl
      · exact h3 k hk1 hk
      · exact hPhi
    · refine ⟨stop, h1, Nat.le_succ_of_le h2, h3, fun _ hstop => ?_⟩
      rcases Nat.eq_or_lt_of_le h2 with rfl | hlt'
      · exact hend ⟨rfl, hstop⟩
      · exact h4 hlt' hstop

/-- `segs` are exactly the maximal runs of one label other than `free` in the cells
`lo .. hi - 1`. -/
structure Tiles (lab : ℕ → α) (free : α) (lo hi : ℕ) (segs : Set Seg) : Prop where
  /-- No segment is empty. -/
  pos : ∀ s ∈ segs, 0 < s.len
  /-- Segments lie in the range. -/
  lo_le : ∀ s ∈ segs, lo ≤ s.start
  /-- Segments lie in the range. -/
  le_hi : ∀ s ∈ segs, s.start + s.len ≤ hi
  /-- Segments are in use. -/
  ne_free : ∀ s ∈ segs, lab s.start ≠ free
  /-- A segment has one label. -/
  const : ∀ s ∈ segs, ∀ k ∈ s, lab k = lab s.start
  /-- The cell before a segment has another label. -/
  prev : ∀ s ∈ segs, lab (s.start - 1) ≠ lab s.start
  /-- So has the cell after it, if there is one. -/
  next : ∀ s ∈ segs, s.start + s.len < hi → lab (s.start + s.len) ≠ lab s.start
  /-- Every cell in use belongs to a segment. -/
  cover : ∀ k, lo ≤ k → k < hi → lab k ≠ free → ∃ s ∈ segs, k ∈ s

namespace Tiles

variable {lab : ℕ → α} {free : α} {lo hi : ℕ} {segs : Set Seg}

/-- Without segments the cells from `lo` on are free. -/
theorem empty (h : ∀ k, lo ≤ k → k < hi → lab k = free) : Tiles lab free lo hi ∅ where
  pos := by simp
  lo_le := by simp
  le_hi := by simp
  ne_free := by simp
  const := by simp
  prev := by simp
  next := by simp
  cover k h1 h2 h3 := absurd (h k h1 h2) h3

theorem start_mem (h : Tiles lab free lo hi segs) {s : Seg} (hs : s ∈ segs) : s.start ∈ s := by
  have := h.pos s hs
  rw [Seg.mem_iff]
  omega

private theorem start_le (h : Tiles lab free lo hi segs) {s t : Seg} {k : ℕ} (hs : s ∈ segs)
    (ht : t ∈ segs) (hks : k ∈ s) (hkt : k ∈ t) : t.start ≤ s.start := by
  by_contra hlt
  rw [Seg.mem_iff] at hks hkt
  -- the cell before `t` is in `s`, so it has the label the two share
  have hpred : t.start - 1 ∈ s := by rw [Seg.mem_iff]; omega
  apply h.prev t ht
  rw [h.const s hs _ hpred, ← h.const s hs k hks, h.const t ht k hkt]

private theorem stop_le (h : Tiles lab free lo hi segs) {s t : Seg} {k : ℕ} (hs : s ∈ segs)
    (ht : t ∈ segs) (hks : k ∈ s) (hkt : k ∈ t) : t.start + t.len ≤ s.start + s.len := by
  by_contra hlt
  have hks' := hks
  have hkt' := hkt
  rw [Seg.mem_iff] at hks' hkt'
  have hsucc : s.start + s.len ∈ t := by rw [Seg.mem_iff]; omega
  have hhi := h.le_hi t ht
  apply h.next s hs (by omega)
  rw [h.const t ht _ hsucc, ← h.const t ht k hkt, h.const s hs k hks]

/-- Two segments that share a cell are the same. -/
theorem eq_of_mem (h : Tiles lab free lo hi segs) {s t : Seg} {k : ℕ} (hs : s ∈ segs) (ht : t ∈ segs)
    (hks : k ∈ s) (hkt : k ∈ t) : s = t := by
  have h1 := h.start_le hs ht hks hkt
  have h2 := h.start_le ht hs hkt hks
  have h3 := h.stop_le hs ht hks hkt
  have h4 := h.stop_le ht hs hkt hks
  ext <;> omega

/-- A run of free cells is apart from every segment. -/
theorem not_mem_of_free (h : Tiles lab free lo hi segs) {s t : Seg} (hs : s ∈ segs)
    (hfree : ∀ k ∈ t, lab k = free) {k : ℕ} (hk : k ∈ s) : k ∉ t := by
  intro hkt
  apply h.ne_free s hs
  rw [← h.const s hs k hk, hfree k hkt]

/-- The segments tell which cells are free, whatever the labels are. -/
theorem eq_free_iff (h : Tiles lab free lo hi segs) {k : ℕ} (hlo : lo ≤ k) (hhi : k < hi) :
    lab k = free ↔ ∀ s ∈ segs, k ∉ s := by
  constructor
  · intro hfree s hs hk
    apply h.ne_free s hs
    rw [← h.const s hs k hk, hfree]
  · intro hno
    by_contra hne
    obtain ⟨s, hs, hk⟩ := h.cover k hlo hhi hne
    exact hno s hs hk

/-- Label a run of free cells with a label unlike its neighbours': it becomes a segment. -/
theorem insert (h : Tiles lab free lo hi segs) {t : Seg} {v : α} (hpos : 0 < t.len) (hlo : lo ≤ t.start)
    (hlo0 : 0 < lo) (hhi : t.start + t.len ≤ hi) (hfree : ∀ k ∈ t, lab k = free) (hv : v ≠ free)
    (hprev : v ≠ lab (t.start - 1)) (hnext : t.start + t.len < hi → v ≠ lab (t.start + t.len)) :
    Tiles (relabel lab t v) free lo hi (insert t segs) := by
  have hstart : t.start ∈ t := by rw [Seg.mem_iff]; omega
  have hbefore : t.start - 1 ∉ t := by rw [Seg.mem_iff]; omega
  have hafter : t.start + t.len ∉ t := by rw [Seg.mem_iff]; omega
  -- an old segment keeps its label; beside it stands what stood there, or the new label
  have hold : ∀ s ∈ segs, ∀ k ∈ s, relabel lab t v k = lab k := fun s hs k hk =>
    relabel_of_not_mem lab v (h.not_mem_of_free hs hfree hk)
  refine ⟨?_, ?_, ?_, ?_, ?_, ?_, ?_, ?_⟩
  · rintro s (rfl | hs)
    exacts [hpos, h.pos s hs]
  · rintro s (rfl | hs)
    exacts [hlo, h.lo_le s hs]
  · rintro s (rfl | hs)
    exacts [hhi, h.le_hi s hs]
  · rintro s (rfl | hs)
    · rwa [relabel_of_mem lab v hstart]
    · rw [hold s hs _ (h.start_mem hs)]
      exact h.ne_free s hs
  · rintro s (rfl | hs) k hk
    · rw [relabel_of_mem lab v hk, relabel_of_mem lab v hstart]
    · rw [hold s hs k hk, hold s hs _ (h.start_mem hs)]
      exact h.const s hs k hk
  · rintro s (rfl | hs)
    · rw [relabel_of_mem lab v hstart, relabel_of_not_mem lab v hbefore]
      exact hprev.symm
    · rw [hold s hs _ (h.start_mem hs)]
      by_cases hk : s.start - 1 ∈ t
      · -- `s` begins right after the new run
        have hne := h.not_mem_of_free hs hfree (h.start_mem hs)
        have hs0 := h.lo_le s hs
        have heq : s.start = t.start + t.len := by rw [Seg.mem_iff] at hk hne; omega
        have hin := h.le_hi s hs
        have hlen := h.pos s hs
        rw [relabel_of_mem lab v hk, heq]
        exact hnext (by omega)
      · rw [relabel_of_not_mem lab v hk]
        exact h.prev s hs
  · rintro s (rfl | hs) hlt
    · rw [relabel_of_mem lab v hstart, relabel_of_not_mem lab v hafter]
      exact (hnext hlt).symm
    · rw [hold s hs _ (h.start_mem hs)]
      by_cases hk : s.start + s.len ∈ t
      · -- `s` ends right before the new run
        have hlen := h.pos s hs
        have hlast : s.start + s.len - 1 ∈ s := by rw [Seg.mem_iff]; omega
        have hne := h.not_mem_of_free hs hfree hlast
        have heq : t.start - 1 = s.start + s.len - 1 := by rw [Seg.mem_iff] at hk hne; omega
        rw [relabel_of_mem lab v hk]
        rwa [heq, h.const s hs _ hlast] at hprev
      · rw [relabel_of_not_mem lab v hk]
        exact h.next s hs hlt
  · intro k h1 h2 h3
    by_cases hk : k ∈ t
    · exact ⟨t, Or.inl rfl, hk⟩
    · rw [relabel_of_not_mem lab v hk] at h3
      obtain ⟨s, hs, hks⟩ := h.cover k h1 h2 h3
      exact ⟨s, Or.inr hs, hks⟩

/-- Free the cells of a segment: it goes, and every other stays. -/
theorem remove (h : Tiles lab free lo hi segs) {t : Seg} (ht : t ∈ segs) :
    Tiles (relabel lab t free) free lo hi (segs \ {t}) := by
  have hold : ∀ s ∈ segs, s ≠ t → ∀ k ∈ s, relabel lab t free k = lab k := fun s hs hne k hk =>
    relabel_of_not_mem lab free fun hkt => hne (h.eq_of_mem hs ht hk hkt)
  -- beside another segment stands what stood there, or a free cell
  have hside : ∀ s ∈ segs, ∀ k, lab k ≠ lab s.start → relabel lab t free k ≠ lab s.start := by
    intro s hs k hne
    by_cases hk : k ∈ t
    · rw [relabel_of_mem lab free hk]
      exact (h.ne_free s hs).symm
    · rwa [relabel_of_not_mem lab free hk]
  refine ⟨fun s hs => h.pos s hs.1, fun s hs => h.lo_le s hs.1, fun s hs => h.le_hi s hs.1, ?_, ?_, ?_, ?_, ?_⟩
  · rintro s ⟨hs, hne⟩
    rw [hold s hs hne _ (h.start_mem hs)]
    exact h.ne_free s hs
  · rintro s ⟨hs, hne⟩ k hk
    rw [hold s hs hne k hk, hold s hs hne _ (h.start_mem hs)]
    exact h.const s hs k hk
  · rintro s ⟨hs, hne⟩
    rw [hold s hs hne _ (h.start_mem hs)]
    exact hside s hs _ (h.prev s hs)
  · rintro s ⟨hs, hne⟩ hlt
    rw [hold s hs hne _ (h.start_mem hs)]
    exact hside s hs _ (h.next s hs hlt)
  · intro k h1 h2 h3
    have hk : k ∉ t := fun hk => h3 (relabel_of_mem lab free hk)
    rw [relabel_of_not_mem lab free hk] at h3
    obtain ⟨s, hs, hks⟩ := h.cover k h1 h2 h3
    exact ⟨s, ⟨hs, fun he => hk (he ▸ hks)⟩, hks⟩

/-- Only the labels of the cells `0 .. hi - 1` matter. -/
theorem congr (h : Tiles lab free lo hi segs) {lab' : ℕ → α} (heq : ∀ k < hi, lab' k = lab k) :
    Tiles lab' free lo hi segs := by
  have hmem : ∀ s ∈ segs, ∀ k ∈ s, lab' k = lab k := fun s hs k hk => by
    have := h.le_hi s hs
    rw [Seg.mem_iff] at hk
    exact heq k (by omega)
  have hpred : ∀ s ∈ segs, lab' (s.start - 1) = lab (s.start - 1) := fun s hs => by
    have := h.le_hi s hs
    have := h.pos s hs
    exact heq _ (by omega)
  refine ⟨h.pos, h.lo_le, h.le_hi, ?_, ?_, ?_, ?_, ?_⟩
  · intro s hs
    rw [hmem s hs _ (h.start_mem hs)]
    exact h.ne_free s hs
  · intro s hs k hk
    rw [hmem s hs k hk, hmem s hs _ (h.start_mem hs)]
    exact h.const s hs k hk
  · intro s hs
    rw [hpred s hs, hmem s hs _ (h.start_mem hs)]
    exact h.prev s hs
  · intro s hs hlt
    rw [heq _ hlt, hmem s hs _ (h.start_mem hs)]
    exact h.next s hs hlt
  · intro k h1 h2 h3
    rw [heq k h2] at h3
    exact h.cover k h1 h2 h3

end Tiles

/-! ### Cells in use -/

variable [DecidableEq α]

/-- How many of the cells `0 .. hi - 1` are in use. -/
def usedCells (lab : ℕ → α) (free : α) (hi : ℕ) : ℕ :=
  ((Finset.range hi).filter fun k => lab k ≠ free).card

theorem usedCells_congr {lab lab' : ℕ → α} {free : α} {hi : ℕ} (h : ∀ k < hi, lab' k = lab k) :
    usedCells lab' free hi = usedCells lab free hi := by
  unfold usedCells
  congr 1
  refine Finset.filter_congr fun k hk => ?_
  rw [h k (Finset.mem_range.mp hk)]

theorem usedCells_le (lab : ℕ → α) (free : α) (hi : ℕ) : usedCells lab free hi ≤ hi := by
  unfold usedCells
  calc _ ≤ (Finset.range hi).card := Finset.card_filter_le _ _
    _ = hi := Finset.card_range hi

/-- A prefix in use and the rest free. -/
theorem usedCells_prefix {lab : ℕ → α} {free : α} {lo hi : ℕ} (hle : lo ≤ hi)
    (h1 : ∀ k < lo, lab k ≠ free) (h2 : ∀ k, lo ≤ k → k < hi → lab k = free) :
    usedCells lab free hi = lo := by
  have : ((Finset.range hi).filter fun k => lab k ≠ free) = Finset.range lo := by
    ext k
    simp only [Finset.mem_filter, Finset.mem_range]
    constructor
    · rintro ⟨hk, hne⟩
      by_contra hlo
      exact hne (h2 k (by omega) hk)
    · exact fun hk => ⟨by omega, h1 k hk⟩
  rw [usedCells, this, Finset.card_range]

private theorem mem_Ico_iff (s : Seg) (k : ℕ) : k ∈ Finset.Ico s.start (s.start + s.len) ↔ k ∈ s := by
  rw [Finset.mem_Ico, Seg.mem_iff]

/-- Using a run of free cells adds its length to the cells in use. -/
theorem usedCells_fill {lab : ℕ → α} {free v : α} {hi : ℕ} {t : Seg} (hhi : t.start + t.len ≤ hi)
    (hfree : ∀ k ∈ t, lab k = free) (hv : v ≠ free) :
    usedCells (relabel lab t v) free hi = usedCells lab free hi + t.len := by
  have hsplit : ((Finset.range hi).filter fun k => relabel lab t v k ≠ free) =
      ((Finset.range hi).filter fun k => lab k ≠ free) ∪ Finset.Ico t.start (t.start + t.len) := by
    ext k
    simp only [Finset.mem_filter, Finset.mem_range, Finset.mem_union, mem_Ico_iff]
    by_cases hk : k ∈ t
    · have hkhi : k < hi := by rw [Seg.mem_iff] at hk; omega
      rw [relabel_of_mem lab v hk]
      exact iff_of_true ⟨hkhi, hv⟩ (Or.inr hk)
    · rw [relabel_of_not_mem lab v hk, or_iff_left hk]
  have hdisj : Disjoint ((Finset.range hi).filter fun k => lab k ≠ free)
      (Finset.Ico t.start (t.start + t.len)) := by
    rw [Finset.disjoint_left]
    intro k hk hkt
    rw [mem_Ico_iff] at hkt
    exact (Finset.mem_filter.mp hk).2 (hfree k hkt)
  rw [usedCells, hsplit, Finset.card_union_of_disjoint hdisj, Nat.card_Ico, Nat.add_sub_cancel_left, usedCells]

/-- Freeing a run of cells in use takes its length off. -/
theorem usedCells_clear (lab : ℕ → α) (free : α) {hi : ℕ} {t : Seg} (hhi : t.start + t.len ≤ hi)
    (hused : ∀ k ∈ t, lab k ≠ free) :
    usedCells (relabel lab t free) free hi + t.len = usedCells lab free hi := by
  have hsplit : ((Finset.range hi).filter fun k => lab k ≠ free) =
      ((Finset.range hi).filter fun k => relabel lab t free k ≠ free) ∪
        Finset.Ico t.start (t.start + t.len) := by
    ext k
    simp only [Finset.mem_filter, Finset.mem_range, Finset.mem_union, mem_Ico_iff]
    by_cases hk : k ∈ t
    · have hkhi : k < hi := by rw [Seg.mem_iff] at hk; omega
      exact iff_of_true ⟨hkhi, hused k hk⟩ (Or.inr hk)
    · rw [relabel_of_not_mem lab free hk, or_iff_left hk]
  have hdisj : Disjoint ((Finset.range hi).filter fun k => relabel lab t free k ≠ free)
      (Finset.Ico t.start (t.start + t.len)) := by
    rw [Finset.disjoint_left]
    intro k hk hkt
    rw [mem_Ico_iff] at hkt
    exact (Finset.mem_filter.mp hk).2 (relabel_of_mem lab free hkt)
  rw [usedCells, usedCells, hsplit, Finset.card_union_of_disjoint hdisj, Nat.card_Ico, Nat.add_sub_cancel_left]

end MoltarOS.Lib
