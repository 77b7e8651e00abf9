import MoltarOS.Lib.Word
import Mathlib.Data.Nat.Bitwise

/-!
# Bit arrays

Flags packed in 32-bit words, flag `i` being bit `i % 32` of word `i / 32`. What a
program does to the words is read here as what it does to the set of flags.
-/

namespace MoltarOS.Lib

/-- The words at an address, by index. That only words of the array are used is for the
user to show. -/
abbrev BitArray := ℕ → UInt32

/-- Flag `i` is set. -/
def Marked (arr : BitArray) (i : ℕ) : Prop := (arr (i / 32)).toNat.testBit (i % 32)

instance (arr : BitArray) (i : ℕ) : Decidable (Marked arr i) := inferInstanceAs (Decidable (_ = true))

/-- `BITMAP_SET(arr, idx)`: `arr[(idx / 32)] |= (1 << (idx % 32))`. -/
def bitmapSet (arr : BitArray) (idx : UInt32) : BitArray :=
  Function.update arr (idx / 32).toNat (arr (idx / 32).toNat ||| 1 <<< (idx % 32))

/-- The value of `1 << k`. -/
theorem toNat_one_shiftLeft {k : UInt32} (hk : k.toNat < 32) : ((1 : UInt32) <<< k).toNat = 2 ^ k.toNat := by
  have hpow : 2 ^ k.toNat < 2 ^ 32 := Nat.pow_lt_pow_right (by decide) hk
  have hone : (1 : UInt32).toNat = 1 := rfl
  rw [UInt32.toNat_shiftLeft, Nat.mod_eq_of_lt hk, hone, Nat.shiftLeft_eq, Nat.one_mul, Nat.mod_eq_of_lt hpow]

/-- The test `word & (1 << k)`. -/
theorem and_one_shiftLeft_eq_zero_iff {w k : UInt32} (hk : k.toNat < 32) :
    w &&& 1 <<< k = 0 ↔ w.toNat.testBit k.toNat = false := by
  have hzero : (0 : UInt32).toNat = 0 := rfl
  rw [← UInt32.toNat_inj, UInt32.toNat_and, toNat_one_shiftLeft hk, Nat.and_two_pow, hzero]
  cases w.toNat.testBit k.toNat <;> simp

/-- **`BITMAP_SET` sets one flag.** -/
theorem marked_bitmapSet {arr : BitArray} {idx : UInt32} {i : ℕ} :
    Marked (bitmapSet arr idx) i ↔ i = idx.toNat ∨ Marked arr i := by
  have hdiv : (idx / 32).toNat = idx.toNat / 32 := UInt32.toNat_div idx 32
  have hmod : (idx % 32).toNat = idx.toNat % 32 := UInt32.toNat_mod idx 32
  rw [Marked, bitmapSet, Function.update_apply, hdiv]
  by_cases hword : i / 32 = idx.toNat / 32
  · have hbit : idx.toNat % 32 = i % 32 ↔ i = idx.toNat := by omega
    rw [if_pos hword, UInt32.toNat_or, Nat.testBit_or, toNat_one_shiftLeft (by omega), hmod, Nat.testBit_two_pow,
      Bool.or_eq_true, decide_eq_true_eq, hbit, or_comm, Marked, hword]
  · have hne : i ≠ idx.toNat := fun h => hword (by rw [h])
    rw [if_neg hword]
    exact ⟨Or.inr, fun h => h.resolve_left hne⟩

/-- A word with all bits set. -/
theorem testBit_of_eq_max {w : UInt32} (h : w = 0xFFFFFFFF) {k : ℕ} (hk : k < 32) : w.toNat.testBit k := by
  have hmax : (0xFFFFFFFF : UInt32).toNat = 2 ^ 32 - 1 := rfl
  rw [h, hmax, Nat.testBit_two_pow_sub_one, decide_eq_true_eq]
  exact hk

end MoltarOS.Lib
