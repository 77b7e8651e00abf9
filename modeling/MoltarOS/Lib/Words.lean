import MoltarOS.Lib.Memory

/-!
# Words on a stack

Words one behind the other in memory, as a list, and the part of a downward stack that lies below a fixed top.

## What is proved

* `Fits.push`, `Fits.drop` — pushing and popping, in terms of the list. A push writes nothing at or above the stack
  pointer.
* `Fits.congr` — they depend on their own bytes alone.
-/

namespace MoltarOS.Lib

open Word

/-! ### Words in memory -/

/-- Words one behind the other. -/
def Words (m : Mem) : UInt32 → List UInt32 → Prop
  | _, [] => True
  | a, w :: ws => m.load32 a = w ∧ Words m (a + 4) ws

instance decidableWords (m : Mem) : (a : UInt32) → (ws : List UInt32) → Decidable (Words m a ws)
  | _, [] => inferInstanceAs (Decidable True)
  | a, _ :: ws => @instDecidableAnd _ _ _ (decidableWords m (a + 4) ws)

namespace Words

variable {m m' : Mem} {a : UInt32} {ws : List UInt32} {w : UInt32}

theorem drop (h : Words m a ws) (n : ℕ) : Words m (a + UInt32.ofNat (4 * n)) (ws.drop n) := by
  induction n generalizing a ws with
  | zero => rwa [Nat.mul_zero, List.drop_zero, show a + UInt32.ofNat 0 = a from UInt32.add_zero a]
  | succ n ih =>
    cases ws with
    | nil => trivial
    | cons w ws =>
      have hnext := ih h.2
      rwa [UInt32.add_assoc, show (4 : UInt32) + UInt32.ofNat (4 * n) = UInt32.ofNat (4 * (n + 1)) by
        rw [Nat.mul_succ, Nat.add_comm, UInt32.ofNat_add]; rfl] at hnext

theorem get (h : Words m a ws) {n : ℕ} (hn : ws[n]? = some w) : m.load32 (a + UInt32.ofNat (4 * n)) = w := by
  have hdrop := h.drop n
  obtain ⟨hlt, rfl⟩ := List.getElem?_eq_some_iff.mp hn
  rw [List.drop_eq_getElem_cons hlt] at hdrop
  exact hdrop.1

/-- They depend on their bytes. -/
theorem congr (h : Words m a ws) (hlen : a.toNat + 4 * ws.length ≤ 2 ^ 32)
    (hmem : ∀ x : UInt32, a.toNat ≤ x.toNat → x.toNat < a.toNat + 4 * ws.length → m' x = m x) : Words m' a ws := by
  induction ws generalizing a with
  | nil => trivial
  | cons w ws ih =>
    rw [List.length_cons] at hlen hmem
    refine ⟨?_, ?_⟩
    · rw [← h.1]
      refine Mem.load32_congr fun x hx => ?_
      have hin := (dist_lt_iff (by omega)).mp hx
      exact hmem x hin.1 (by omega)
    · cases ws with
      | nil => trivial
      | cons w' ws =>
        rw [List.length_cons] at hlen hmem
        have hnext : (a + 4).toNat = a.toNat + 4 := toNat_add_ofNat (n := 4) (by omega)
        refine ih h.2 ?_ fun x hlo hhi => hmem x (by omega) ?_
        · rw [hnext, List.length_cons]
          omega
        · rw [hnext, List.length_cons] at hhi
          omega

end Words

/-- Words from `a` up to `top`. -/
structure Fits (m : Mem) (a : UInt32) (ws : List UInt32) (top : ℕ) : Prop where
  words : Words m a ws
  top : a.toNat + 4 * ws.length = top

/-- From `n` on, memory is the same. -/
def SameAbove (n : ℕ) (m m' : Mem) : Prop := ∀ x : UInt32, n ≤ x.toNat → m' x = m x

theorem SameAbove.refl (n : ℕ) (m : Mem) : SameAbove n m m := fun _ _ => rfl

theorem SameAbove.trans {n k : ℕ} {m m' m'' : Mem} (h : SameAbove n m m') (h' : SameAbove k m' m'') (hle : k ≤ n) :
    SameAbove n m m'' := fun x hx => (h' x (hle.trans hx)).trans (h x hx)

theorem SameAbove.mono {n k : ℕ} {m m' : Mem} (h : SameAbove n m m') (hle : n ≤ k) : SameAbove k m m' :=
  fun x hx => h x (hle.trans hx)

namespace Fits

variable {m m' : Mem} {a : UInt32} {ws : List UInt32} {top : ℕ}

theorem congr (h : Fits m a ws top) (htop : top ≤ 2 ^ 32)
    (hmem : ∀ x : UInt32, a.toNat ≤ x.toNat → x.toNat < top → m' x = m x) : Fits m' a ws top :=
  ⟨h.words.congr (h.top ▸ htop) fun x hlo hhi => hmem x hlo (h.top ▸ hhi), h.top⟩

/-- One word below is in memory before it is pushed on. -/
theorem push (h : Fits m a ws top) (htop : top ≤ 2 ^ 32) (hroom : 4 * (ws.length + 1) ≤ top) (w : UInt32) :
    Fits (m.store32 (a - 4) w) (a - 4) (w :: ws) top ∧ SameAbove a.toNat m (m.store32 (a - 4) w) := by
  have hlen := h.top
  have hsub : (a - 4).toNat = a.toNat - 4 := toNat_sub_of_le (by show 4 ≤ a.toNat; omega)
  have habove : SameAbove a.toNat m (m.store32 (a - 4) w) := fun x hx => by
    rw [Mem.store32_apply, if_neg]
    intro hin
    have hlt := (dist_lt_iff (by omega)).mp hin
    omega
  refine ⟨⟨⟨Mem.load32_store32 m _ w, ?_⟩, ?_⟩, habove⟩
  · rw [show a - 4 + 4 = a by grind]
    exact (h.congr htop fun x hlo _ => habove x hlo).words
  · rw [List.length_cons]
    omega

theorem drop (h : Fits m a ws top) (htop : top < 2 ^ 32) {n : ℕ} (hn : n ≤ ws.length) :
    Fits m (a + UInt32.ofNat (4 * n)) (ws.drop n) top := by
  have hlen := h.top
  refine ⟨h.words.drop n, ?_⟩
  rw [toNat_add_ofNat (by omega), List.length_drop]
  omega

end Fits

end MoltarOS.Lib
