import Mathlib.Data.List.Nodup

/-!
# Lineages

Members create members, each one generation below its creator. The generation of a member
tells it from all others exactly as long as nobody has created two.
-/

namespace MoltarOS.Lib

universe u

variable {α : Type u} {members members' : List α} {generation generation' : α → ℕ} {births : List (α × α)} {p c : α}

/-- The members, their generations, and who created whom, in order. -/
structure Lineage (members : List α) (generation : α → ℕ) (births : List (α × α)) : Prop where
  /-- Creators are members. -/
  parent_mem : ∀ b ∈ births, b.1 ∈ members
  /-- So are those they created. -/
  child_mem : ∀ b ∈ births, b.2 ∈ members
  /-- They are one generation below. -/
  generation_child : ∀ b ∈ births, generation b.2 = generation b.1 + 1
  /-- Nobody is created twice. -/
  children : (births.map Prod.snd).Nodup
  /-- There are at most as many generations as births. -/
  generation_le : ∀ u ∈ members, generation u ≤ births.length
  /-- In a single line generations differ. -/
  distinct : (births.map Prod.fst).Nodup → ∀ u ∈ members, ∀ v ∈ members, generation u = generation v → u = v
  /-- Its end is the last generation. -/
  last : (births.map Prod.fst).Nodup → ∀ u ∈ members, u ∉ births.map Prod.fst → generation u = births.length

namespace Lineage

theorem root {r : α} (h : generation r = 0) : Lineage [r] generation [] := by
  have hroot : ∀ u ∈ [r], u = r := fun u hu => List.mem_singleton.mp hu
  refine ⟨by simp, by simp, by simp, List.nodup_nil, fun u hu => ?_, fun _ u hu v hv _ => ?_, fun _ u hu _ => ?_⟩
  · rw [hroot u hu, h]
    exact Nat.zero_le _
  · exact (hroot u hu).trans (hroot v hv).symm
  · rw [hroot u hu, h]
    rfl

/-- Only the members' generations matter. -/
theorem congr (h : Lineage members generation births) (hg : ∀ u ∈ members, generation' u = generation u) :
    Lineage members generation' births := by
  refine ⟨h.parent_mem, h.child_mem, fun b hb => ?_, h.children, fun u hu => ?_, fun hline u hu v hv heq => ?_,
    fun hline u hu hlast => ?_⟩
  · rw [hg _ (h.child_mem b hb), hg _ (h.parent_mem b hb)]
    exact h.generation_child b hb
  · rw [hg u hu]
    exact h.generation_le u hu
  · rw [hg u hu, hg v hv] at heq
    exact h.distinct hline u hu v hv heq
  · rw [hg u hu]
    exact h.last hline u hu hlast

/-- A member creates another one. -/
theorem birth (h : Lineage members generation births) (hp : p ∈ members) (hc : c ∉ members)
    (hmem : ∀ u, u ∈ members' ↔ u = c ∨ u ∈ members) (hgen : generation c = generation p + 1) :
    Lineage members' generation (births ++ [(p, c)]) := by
  have hold : ∀ u ∈ members, u ∈ members' := fun u hu => (hmem u).mpr (Or.inr hu)
  have hlen : (births ++ [(p, c)]).length = births.length + 1 := List.length_append
  have hparents : (births ++ [(p, c)]).map Prod.fst = (births.map Prod.fst).concat p := by
    rw [List.map_append, List.concat_eq_append, List.map_singleton]
  -- in a single line it is the last that creates
  have hline : ((births.map Prod.fst).concat p).Nodup →
      (births.map Prod.fst).Nodup ∧ generation p = births.length ∧ generation c = births.length + 1 := fun hn => by
    obtain ⟨hp', hn⟩ := (List.nodup_concat _ _).mp hn
    have hlast := h.last hn p hp hp'
    exact ⟨hn, hlast, by rw [hgen, hlast]⟩
  refine ⟨?_, ?_, ?_, ?_, fun u hu => ?_, fun hn u hu v hv heq => ?_, fun hn u hu hlast => ?_⟩
  · exact List.forall_mem_append.mpr ⟨fun b hb => hold _ (h.parent_mem b hb), List.forall_mem_singleton.mpr (hold p hp)⟩
  · exact List.forall_mem_append.mpr
      ⟨fun b hb => hold _ (h.child_mem b hb), List.forall_mem_singleton.mpr ((hmem c).mpr (Or.inl rfl))⟩
  · exact List.forall_mem_append.mpr ⟨h.generation_child, List.forall_mem_singleton.mpr hgen⟩
  · rw [List.map_append, List.map_singleton, ← List.concat_eq_append, List.nodup_concat]
    refine ⟨fun hmem' => ?_, h.children⟩
    obtain ⟨b, hb, rfl⟩ := List.mem_map.mp hmem'
    exact hc (h.child_mem b hb)
  · rw [hlen]
    rcases (hmem u).mp hu with rfl | hu
    · rw [hgen]
      exact Nat.succ_le_succ (h.generation_le p hp)
    · exact Nat.le_succ_of_le (h.generation_le u hu)
  · rw [hparents] at hn
    obtain ⟨hn, -, hchild⟩ := hline hn
    have hnew : ∀ w ∈ members, generation w ≠ generation c := fun w hw he => by
      have hle := h.generation_le w hw
      omega
    rcases (hmem u).mp hu with rfl | hu <;> rcases (hmem v).mp hv with rfl | hv
    · rfl
    · exact absurd heq.symm (hnew v hv)
    · exact absurd heq (hnew u hu)
    · exact h.distinct hn u hu v hv heq
  · rw [hparents] at hn hlast
    obtain ⟨hn, hparent, hchild⟩ := hline hn
    rw [List.concat_eq_append, List.mem_append, not_or, List.mem_singleton] at hlast
    rw [hlen]
    rcases (hmem u).mp hu with rfl | hu
    · exact hchild
    · -- the last one so far is the one that creates
      have hu' := h.last hn u hu hlast.1
      exact absurd (h.distinct hn u hu p hp (hu'.trans hparent.symm)) hlast.2

/-- **Generations tell members apart** exactly as long as nobody has created two. -/
theorem distinct_iff (h : Lineage members generation births) :
    (∀ u ∈ members, ∀ v ∈ members, generation u = generation v → u = v) ↔ (births.map Prod.fst).Nodup := by
  refine ⟨fun hd => ?_, h.distinct⟩
  refine List.Nodup.map_on (fun b hb b' hb' heq => Prod.ext heq ?_) (List.Nodup.of_map _ h.children)
  refine hd _ (h.child_mem b hb) _ (h.child_mem b' hb') ?_
  rw [h.generation_child b hb, h.generation_child b' hb', heq]

end Lineage

end MoltarOS.Lib
