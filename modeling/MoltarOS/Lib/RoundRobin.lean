import MoltarOS.Lib.Machine
import Mathlib.Data.List.Nodup

/-!
# Round robin on a growing ring

A ring of elements, the one whose turn it is at the head. The turn passes to the next
element, and at any time a new element may come in right behind the head.

## What is proved

* `round` — between two turns of the same element, every other element that was in the
  ring at the first turn has exactly one turn, whatever comes in meanwhile.
-/

namespace MoltarOS.Lib

universe u

variable {α : Type u}

/-- What happens to a ring. -/
inductive RingOp (α : Type u) where
  /-- The turn passes on. -/
  | next
  /-- A new element comes in behind the head. -/
  | spawn (x : α)

namespace Ring

/-- The ring after one operation; what comes in is not in the ring yet. -/
def step [DecidableEq α] : List α → RingOp α → Option (List α)
  | [], _ => none
  | c :: r, .next => some (r ++ [c])
  | c :: r, .spawn x => if x ∈ c :: r then none else some (c :: x :: r)

end Ring

/-- The ring as a machine. -/
def ringMachine (α : Type u) [DecidableEq α] : Machine (List α) (RingOp α) := ⟨Ring.step⟩

namespace Ring

/-- The elements whose turn it becomes, operation by operation. -/
def turns : List α → List (RingOp α) → List α
  | [], _ | _, [] => []
  | c :: r, .next :: ops => r.headD c :: turns (r ++ [c]) ops
  | c :: r, .spawn x :: ops => turns (c :: x :: r) ops

/-- How far the round that began at `t` with the others `old` has come: `seen` and the head have
had their turn, and the elements between the head and `t` have not. -/
inductive InRound (t : α) (old : List α) : List α → List α → Prop
  /-- It is still the turn of `t`. -/
  | start {pending : List α} (hnodup : (t :: pending).Nodup) (hold : ∀ u ∈ old, u ∈ pending) :
    InRound t old [] (t :: pending)
  /-- It is the turn of `c`. -/
  | turn {c : α} {pending seen : List α} (hnodup : (c :: pending ++ t :: seen).Nodup)
    (hold : ∀ u ∈ old, u ∈ pending ∨ u ∈ seen ++ [c]) : InRound t old (seen ++ [c]) (c :: pending ++ t :: seen)

variable {t c : α} {old sel r : List α}

theorem InRound.spawn {x : α} (h : InRound t old sel (c :: r)) (hx : x ∉ c :: r) : InRound t old sel (c :: x :: r) := by
  have hperm : (c :: x :: r).Perm (x :: c :: r) := List.Perm.swap x c r
  cases h with
  | start hnodup hold =>
    exact InRound.start (hperm.nodup_iff.mpr (List.nodup_cons.mpr ⟨hx, hnodup⟩)) fun u hu =>
      List.mem_cons_of_mem x (hold u hu)
  | @turn _ pending seen hnodup hold =>
    have hnodup' := hperm.nodup_iff.mpr (List.nodup_cons.mpr ⟨hx, hnodup⟩)
    exact @InRound.turn _ t old c (x :: pending) seen hnodup' fun u hu => (hold u hu).imp_left (List.mem_cons_of_mem x)

/-- The turn passes to an element that has not had one, or, when all have, to `t`. -/
theorem InRound.next (h : InRound t old sel (c :: r)) :
    (r.headD c = t ∧ sel.Nodup ∧ ∀ u ∈ old, u ∈ sel) ∨
      r.headD c ≠ t ∧ InRound t old (sel ++ [r.headD c]) (r ++ [c]) := by
  cases h with
  | start hnodup hold =>
    cases r with
    | nil => exact Or.inl ⟨rfl, List.nodup_nil, fun u hu => hold u hu⟩
    | cons p ps =>
      have hpt : p ≠ t := fun he => (List.nodup_cons.mp hnodup).1 (he ▸ List.mem_cons_self)
      refine Or.inr ⟨hpt, @InRound.turn _ t old p ps [] ?_ fun u hu => ?_⟩
      · exact (List.perm_append_singleton t (p :: ps)).nodup_iff.mpr hnodup
      · exact (List.mem_cons.mp (hold u hu)).symm.imp_right fun he => List.mem_singleton.mpr he
  | @turn _ pending seen hnodup hold =>
    cases pending with
    | nil =>
      refine Or.inl ⟨rfl, ?_, fun u hu => (hold u hu).resolve_left (List.not_mem_nil)⟩
      have hrest := List.nodup_cons.mp hnodup
      have hseen := (List.nodup_cons.mp hrest.2).2
      exact (List.perm_append_singleton c seen).nodup_iff.mpr
        (List.nodup_cons.mpr ⟨fun hc => hrest.1 (List.mem_cons_of_mem t hc), hseen⟩)
    | cons p ps =>
      have hshape : p :: ps ++ t :: seen ++ [c] = p :: ps ++ t :: (seen ++ [c]) := by simp
      have hpt : p ≠ t := fun he =>
        (List.nodup_append.mp (List.nodup_cons.mp hnodup).2).2.2 p List.mem_cons_self t List.mem_cons_self he
      refine Or.inr ⟨hpt, ?_⟩
      change InRound t old (seen ++ [c] ++ [p]) (p :: ps ++ t :: seen ++ [c])
      rw [hshape]
      refine @InRound.turn _ t old p ps (seen ++ [c]) ?_ fun u hu => ?_
      · rw [← hshape]
        exact (List.perm_append_singleton c _).nodup_iff.mpr hnodup
      · rcases hold u hu with hu | hu
        · exact (List.mem_cons.mp hu).symm.imp_right fun he => by simp [he]
        · exact Or.inr (List.mem_append_left [p] hu)

variable [DecidableEq α]

/-- The rest of a round, from any point of it. -/
theorem InRound.count {rest r' : List α} {ops : List (RingOp α)} (h : InRound t old sel r)
    (hr : (ringMachine α).run r ops = some r') (hturns : turns r ops = rest ++ [t]) (ht : t ∉ rest) :
    ∀ u ∈ old, (sel ++ rest).count u = 1 := by
  induction ops generalizing r sel rest with
  | nil => cases r <;> simp [turns] at hturns
  | cons op ops ih =>
    obtain ⟨w, hw, hrun⟩ := (ringMachine α).run_cons.mp hr
    cases r with
    | nil => simp [turns] at hturns
    | cons c r =>
      cases op with
      | spawn x =>
        simp only [ringMachine, step] at hw
        split_ifs at hw with hx
        cases hw
        exact ih (h.spawn hx) hrun hturns ht
      | next =>
        simp only [ringMachine, step, Option.some.injEq] at hw
        subst hw
        rw [turns] at hturns
        rcases h.next with ⟨hback, hnodup, hall⟩ | ⟨hne, hnext⟩
        · -- the round is over: nothing follows
          have hrest : rest = [] := by
            cases rest with
            | nil => rfl
            | cons p rest =>
              rw [List.cons_append, List.cons.injEq] at hturns
              exact absurd (hback.symm.trans hturns.1) fun he => ht (he ▸ List.mem_cons_self)
          intro u hu
          rw [hrest, List.append_nil]
          exact List.count_eq_one_of_mem hnodup (hall u hu)
        · cases rest with
          | nil =>
            rw [List.nil_append, List.cons.injEq] at hturns
            exact absurd hturns.1 hne
          | cons p rest =>
            rw [List.cons_append, List.cons.injEq] at hturns
            rw [hturns.1] at hnext
            rw [← List.singleton_append, ← List.append_assoc]
            exact ih hnext hrun hturns.2 fun hmem => ht (List.mem_cons_of_mem p hmem)

/-- **A round gives every element one turn.** -/
theorem round {others r' turned : List α} {ops : List (RingOp α)} (hnodup : (t :: others).Nodup)
    (hr : (ringMachine α).run (t :: others) ops = some r') (hturns : turns (t :: others) ops = turned ++ [t])
    (ht : t ∉ turned) : ∀ u ∈ others, turned.count u = 1 :=
  (InRound.start hnodup fun _ hu => hu).count hr hturns ht

end Ring

end MoltarOS.Lib
