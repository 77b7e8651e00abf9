import Mathlib.Algebra.Order.Group.Nat

/-!
# 32-bit words

Core gives the value of a sum, a difference and a product of words with the
reduction modulo `2 ^ 32` written out. Here are the cases in which nothing wraps,
and the membership of a word in a span `[a, a + n)` decided by one wrapping
subtraction, which is how a loop over `buf[i]` covers its addresses.
-/

namespace MoltarOS.Lib.Word

theorem toNat_add_of_lt {a b : UInt32} (h : a.toNat + b.toNat < 2 ^ 32) :
    (a + b).toNat = a.toNat + b.toNat := by
  rw [UInt32.toNat_add, Nat.mod_eq_of_lt h]

theorem toNat_mul_of_lt {a b : UInt32} (h : a.toNat * b.toNat < 2 ^ 32) :
    (a * b).toNat = a.toNat * b.toNat := by
  rw [UInt32.toNat_mul, Nat.mod_eq_of_lt h]

theorem toNat_sub_of_le {a b : UInt32} (h : b.toNat ≤ a.toNat) :
    (a - b).toNat = a.toNat - b.toNat :=
  UInt32.toNat_sub_of_le a b (UInt32.le_iff_toNat_le.mpr h)

/-- What is below another word has a successor. -/
theorem toNat_add_one_of_lt {a b : UInt32} (h : a < b) : (a + 1).toNat = a.toNat + 1 := by
  have hlt := UInt32.lt_iff_toNat_lt.mp h
  have hb := b.toNat_lt
  rw [toNat_add_of_lt (by rw [UInt32.toNat_one]; omega), UInt32.toNat_one]

theorem toNat_sub_one_of_pos {a : UInt32} (h : 0 < a.toNat) : (a - 1).toNat = a.toNat - 1 := toNat_sub_of_le h

theorem toNat_ofNat_of_lt {n : ℕ} (h : n < 2 ^ 32) : (UInt32.ofNat n).toNat = n :=
  UInt32.toNat_ofNat_of_lt' h

theorem ofNat_add_one (n : ℕ) : UInt32.ofNat (n + 1) = UInt32.ofNat n + 1 :=
  UInt32.ofNat_add n 1

/-! ### Parts of a word -/

/-- A mask of low bits. -/
theorem toNat_and_mask (v : UInt32) {mask : UInt32} {w : ℕ} (hmask : mask.toNat = 2 ^ w - 1) :
    (v &&& mask).toNat = v.toNat % 2 ^ w := by
  rw [UInt32.toNat_and, hmask, Nat.and_two_pow_sub_one_eq_mod]

theorem toNat_shiftRight_of_lt (v : UInt32) {k : UInt32} (hk : k.toNat < 32) :
    (v >>> k).toNat = v.toNat / 2 ^ k.toNat := by
  rw [UInt32.toNat_shiftRight, Nat.mod_eq_of_lt hk, Nat.shiftRight_eq_div_pow]

theorem toNat_low16 (v : UInt32) : (v &&& 0xFFFF).toUInt16.toNat = v.toNat % 2 ^ 16 := by
  rw [UInt32.toNat_toUInt16, toNat_and_mask v (w := 16) rfl, Nat.mod_mod]

theorem toNat_low8 (v : UInt32) : (v &&& 0xFF).toUInt8.toNat = v.toNat % 2 ^ 8 := by
  rw [UInt32.toNat_toUInt8, toNat_and_mask v (w := 8) rfl, Nat.mod_mod]

/-- The two bytes of a halfword. -/
theorem toNat_halfword (v : UInt16) : v.toUInt8.toNat + 2 ^ 8 * (v >>> 8).toUInt8.toNat = v.toNat := by
  have hv := v.toNat_lt
  have hshift : (v >>> 8).toNat = v.toNat / 2 ^ 8 := by
    rw [UInt16.toNat_shiftRight, show (8 : UInt16).toNat % 16 = 8 from rfl, Nat.shiftRight_eq_div_pow]
  rw [UInt16.toNat_toUInt8, UInt16.toNat_toUInt8, hshift]
  omega

/-! ### Distances -/

/-- How far above `a` the word `b` lies, going up and around. -/
def dist (a b : UInt32) : ℕ := (b - a).toNat

theorem dist_lt (a b : UInt32) : dist a b < 2 ^ 32 := (b - a).toNat_lt

theorem add_dist (a b : UInt32) : a + UInt32.ofNat (dist a b) = b := by
  rw [dist, UInt32.ofNat_toNat]
  grind

theorem dist_add_ofNat (a : UInt32) {n : ℕ} (h : n < 2 ^ 32) : dist a (a + UInt32.ofNat n) = n := by
  have : a + UInt32.ofNat n - a = UInt32.ofNat n := by grind
  rw [dist, this, toNat_ofNat_of_lt h]

theorem dist_add (a k : UInt32) : dist a (a + k) = k.toNat := by
  have : a + k - a = k := by grind
  rw [dist, this]

theorem eq_add_ofNat_iff {a b : UInt32} {n : ℕ} (h : n < 2 ^ 32) :
    b = a + UInt32.ofNat n ↔ dist a b = n := by
  constructor
  · rintro rfl
    exact dist_add_ofNat a h
  · rintro rfl
    exact (add_dist a b).symm

@[simp] theorem dist_self (a : UInt32) : dist a a = 0 := by
  rw [dist, UInt32.sub_self]
  rfl

/-- `k` further on, what is at least `k` away is `k` nearer. -/
theorem dist_add_left {a b : UInt32} {k : ℕ} (h : k ≤ dist a b) : dist (a + UInt32.ofNat k) b = dist a b - k := by
  have hlt := dist_lt a b
  have hk : (UInt32.ofNat k).toNat = k := toNat_ofNat_of_lt (by omega)
  have hsub : b - (a + UInt32.ofNat k) = b - a - UInt32.ofNat k := by grind
  rw [dist, hsub, toNat_sub_of_le (by rw [hk]; exact h), hk, dist]

/-- `k` further on, what is less than `k` away is most of the way around. -/
theorem dist_add_left_of_lt {a b : UInt32} {k : ℕ} (h : dist a b < k) (hk : k < 2 ^ 32) :
    dist (a + UInt32.ofNat k) b + k = dist a b + 2 ^ 32 := by
  have hk' : (UInt32.ofNat k).toNat = k := toNat_ofNat_of_lt hk
  have hsub : b - (a + UInt32.ofNat k) = b - a - UInt32.ofNat k := by grind
  rw [dist] at h ⊢
  rw [hsub, UInt32.toNat_sub, hk', dist]
  omega

/-- Whether a word is in a span above `a + D`, both counted from `a`. -/
theorem dist_ofNat_lt_iff (a : UInt32) {D b n : ℕ} (hb : b < 2 ^ 32) (hD : D + n ≤ 2 ^ 32) (hD' : D < 2 ^ 32) :
    dist (a + UInt32.ofNat D) (a + UInt32.ofNat b) < n ↔ D ≤ b ∧ b < D + n := by
  have hdist := dist_add_ofNat a hb
  rcases Nat.lt_or_ge b D with hlt | hge
  · have hwrap := dist_add_left_of_lt (hdist.symm ▸ hlt) hD'
    omega
  · have hnext := dist_add_left (a := a) (k := D) (hdist.symm ▸ hge)
    omega

/-- What is not far above `a + k` is `k` further above `a`. -/
theorem dist_eq_add {a b : UInt32} {k : ℕ} (h : dist (a + UInt32.ofNat k) b + k < 2 ^ 32) :
    dist a b = dist (a + UInt32.ofNat k) b + k := by
  rcases Nat.lt_or_ge (dist a b) k with hlt | hge
  · have hwrap := dist_add_left_of_lt hlt (by omega)
    omega
  · have hnext := dist_add_left hge
    omega

/-- One word further on, every other word is one nearer. -/
theorem dist_add_one {a b : UInt32} (h : b ≠ a) : dist (a + 1) b + 1 = dist a b := by
  have hpos : 1 ≤ dist a b := by
    by_contra h0
    apply h
    rw [← add_dist a b, Nat.lt_one_iff.mp (not_le.mp h0)]
    exact UInt32.add_zero a
  have hone := dist_add_left hpos
  rw [show a + 1 = a + UInt32.ofNat 1 from rfl, hone]
  omega

/-- Below the top of the address space a distance is a difference. -/
theorem toNat_add_ofNat {a : UInt32} {n : ℕ} (h : a.toNat + n < 2 ^ 32) :
    (a + UInt32.ofNat n).toNat = a.toNat + n := by
  have hn : (UInt32.ofNat n).toNat = n := toNat_ofNat_of_lt (by omega)
  rw [toNat_add_of_lt (by rw [hn]; exact h), hn]

/-- A word lies less than `n` above `a` exactly when it is in `[a, a + n)`, provided the
span does not run past the end of the address space. -/
theorem dist_lt_iff {a b : UInt32} {n : ℕ} (h : a.toNat + n ≤ 2 ^ 32) :
    dist a b < n ↔ a.toNat ≤ b.toNat ∧ b.toNat < a.toNat + n := by
  have ha := a.toNat_lt
  have hb := b.toNat_lt
  rw [dist, UInt32.toNat_sub]
  omega

end MoltarOS.Lib.Word
