import Mathlib.Data.Nat.Init

/-!
# Loops that can fail

The counted loop of C with a `break`, and the loop over a list, around a body that fails
or goes on with a new state. For each there is the invariant rule: a body that
does not fail and takes the invariant from one turn to the next gives a loop that does not fail
and ends with it.
-/

namespace MoltarOS.Lib

universe u

variable {ε σ α : Type*}

/-- What follows a step that did not fail. -/
@[simp] theorem ok_bind {τ ρ : Type u} (a : τ) (f : τ → Except ε ρ) : (Except.ok a >>= f) = f a := rfl

/-- Two steps did not fail: there is what the first gave, and the second went on from it. -/
theorem bind_eq_ok {τ ρ : Type u} {e : Except ε τ} {f : τ → Except ε ρ} {b : ρ} (h : (e >>= f) = .ok b) :
    ∃ a, e = .ok a ∧ f a = .ok b := by
  cases e with
  | error _ => cases h
  | ok a => exact ⟨a, rfl, h⟩

/-- What is known of the result of a step that did not fail. -/
theorem exists_ok_of_map {e : Except ε σ} {f : σ → α} {b : α} (h : e.toOption.map f = some b) :
    ∃ t, e = .ok t ∧ f t = b := by
  cases e with
  | error _ => cases h
  | ok t => exact ⟨t, rfl, Option.some.inj h⟩

/-- The turns of `for (; left; j++, left--) { if (stop(j)) break; body }`. -/
def forLoopFrom (stop : ℕ → Bool) (body : ℕ → σ → Except ε σ) : ℕ → ℕ → σ → Except ε σ
  | _, 0, s => .ok s
  | j, left + 1, s => if stop j then .ok s else do
    let s ← body j s
    forLoopFrom stop body (j + 1) left s

/-- `for (j = 0; j < n; j++) { if (stop(j)) break; body }`. -/
def forLoop (n : ℕ) (stop : ℕ → Bool) (body : ℕ → σ → Except ε σ) (s : σ) : Except ε σ := forLoopFrom stop body 0 n s

/-- No `break`. -/
def never : ℕ → Bool := fun _ => false

variable {stop : ℕ → Bool} {body : ℕ → σ → Except ε σ} {I : ℕ → σ → Prop} {n m : ℕ} {s : σ}

theorem forLoopFrom_spec {j left : ℕ} (hm : j ≤ m) (hn : m ≤ j + left) (hgo : ∀ i < m, stop i = false)
    (hend : m < j + left → stop m = true) (hbody : ∀ i < m, ∀ s, I i s → ∃ t, body i s = .ok t ∧ I (i + 1) t)
    (hs : I j s) : ∃ t, forLoopFrom stop body j left s = .ok t ∧ I m t := by
  induction left generalizing j s with
  | zero =>
    obtain rfl : j = m := by omega
    exact ⟨s, rfl, hs⟩
  | succ left ih =>
    by_cases hjm : j = m
    · subst hjm
      exact ⟨s, by rw [forLoopFrom, if_pos (hend (by omega))], hs⟩
    · obtain ⟨t, ht, hI⟩ := hbody j (by omega) s hs
      obtain ⟨u, hu, hIm⟩ := ih (by omega) (by omega) (fun h => hend (by omega)) hI
      refine ⟨u, ?_, hIm⟩
      rw [forLoopFrom, hgo j (by omega), ht]
      exact hu

/-- **The invariant rule**, for a loop that stops after `m` turns. -/
theorem forLoop_spec (hn : m ≤ n) (hgo : ∀ i < m, stop i = false) (hend : m < n → stop m = true)
    (hbody : ∀ i < m, ∀ s, I i s → ∃ t, body i s = .ok t ∧ I (i + 1) t) (hs : I 0 s) :
    ∃ t, forLoop n stop body s = .ok t ∧ I m t :=
  forLoopFrom_spec (Nat.zero_le m) (by omega) hgo (fun h => hend (by omega)) hbody hs

/-- The rule for a loop that is not left early. -/
theorem forLoop_never (hbody : ∀ i < n, ∀ s, I i s → ∃ t, body i s = .ok t ∧ I (i + 1) t) (hs : I 0 s) :
    ∃ t, forLoop n never body s = .ok t ∧ I n t :=
  forLoop_spec (Nat.le_refl n) (fun _ _ => rfl) (fun h => absurd h (Nat.lt_irrefl n)) hbody hs

theorem forLoopFrom_ok {I : σ → Prop} (hbody : ∀ i s t, I s → body i s = .ok t → I t) {j left : ℕ} {t : σ} (hs : I s)
    (h : forLoopFrom never body j left s = .ok t) {i : ℕ} (hj : j ≤ i) (hi : i < j + left) :
    ∃ u v, I u ∧ body i u = .ok v := by
  induction left generalizing j s with
  | zero => omega
  | succ left ih =>
    obtain ⟨u, hu, hrest⟩ : ∃ u, body j s = .ok u ∧ forLoopFrom never body (j + 1) left u = .ok t := bind_eq_ok h
    by_cases hji : j = i
    · exact ⟨s, u, hs, hji ▸ hu⟩
    · exact ih (hbody j s u hs hu) hrest (by omega) (by omega)

/-- Conversely, when the loop does not fail, no turn does. -/
theorem forLoop_ok {I : σ → Prop} (hbody : ∀ i s t, I s → body i s = .ok t → I t) {t : σ} (hs : I s)
    (h : forLoop n never body s = .ok t) {i : ℕ} (hi : i < n) : ∃ u v, I u ∧ body i u = .ok v :=
  forLoopFrom_ok hbody hs h (Nat.zero_le i) (by omega)

/-- The rule for the loop over a list. -/
theorem foldlM_spec {f : σ → α → Except ε σ} {I : σ → Prop} {l : List α}
    (hbody : ∀ a ∈ l, ∀ s, I s → ∃ t, f s a = .ok t ∧ I t) (hs : I s) : ∃ t, l.foldlM f s = .ok t ∧ I t := by
  induction l generalizing s with
  | nil => exact ⟨s, rfl, hs⟩
  | cons a l ih =>
    obtain ⟨t, ht, hI⟩ := hbody a List.mem_cons_self s hs
    obtain ⟨u, hu, hIu⟩ := ih (fun b hb => hbody b (List.mem_cons_of_mem a hb)) hI
    refine ⟨u, ?_, hIu⟩
    rw [List.foldlM_cons, ht]
    exact hu

end MoltarOS.Lib
