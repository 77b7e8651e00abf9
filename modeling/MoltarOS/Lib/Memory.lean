import MoltarOS.Lib.Word

/-!
# Byte memory

A memory gives a byte for each of the `2 ^ 32` addresses. Words are read and
written little-endian, four bytes at consecutive addresses (wrapping at the top, as
the addresses do). A block copied from one address to another is the memory a copying
loop is to come to, whichever end it starts from.
-/

namespace MoltarOS.Lib

open Word

/-- The bytes at the 32-bit addresses. -/
abbrev Mem := UInt32 → UInt8

namespace Mem

/-- Write one byte. -/
def set (m : Mem) (a : UInt32) (v : UInt8) : Mem := Function.update m a v

theorem set_of_ne (m : Mem) {a b : UInt32} (v : UInt8) (h : b ≠ a) : m.set a v b = m b := by
  simp [set, h]

theorem set_apply (m : Mem) (a b : UInt32) (v : UInt8) :
    m.set a v b = if b = a then v else m b := by
  simp [set, Function.update_apply]

/-! ### Copies -/

/-- The memory in which the bytes `lo` up to `hi` of the block at `dest` are those that the
block at `src` had. -/
def copied (m : Mem) (dest src : UInt32) (lo hi : ℕ) : Mem :=
  fun a => if lo ≤ dist dest a ∧ dist dest a < hi then m (src + UInt32.ofNat (dist dest a)) else m a

theorem copied_of_not (m : Mem) {dest src a : UInt32} {lo hi : ℕ} (h : ¬(lo ≤ dist dest a ∧ dist dest a < hi)) :
    m.copied dest src lo hi a = m a := if_neg h

/-- Nothing copied yet. -/
theorem copied_self (m : Mem) (dest src : UInt32) (n : ℕ) : m.copied dest src n n = m :=
  funext fun _ => m.copied_of_not (by omega)

/-- Inside the block. -/
theorem copied_add_ofNat (m : Mem) (dest src : UInt32) {lo hi i : ℕ} (hlo : lo ≤ i) (hi' : i < hi) (hw : i < 2 ^ 32) :
    m.copied dest src lo hi (dest + UInt32.ofNat i) = m (src + UInt32.ofNat i) := by
  rw [copied, dist_add_ofNat dest hw, if_pos ⟨hlo, hi'⟩]

/-- One byte more at the upper end. -/
theorem set_copied_upper (m : Mem) (dest src : UInt32) {lo hi : ℕ} (hlo : lo ≤ hi) (hw : hi < 2 ^ 32) :
    (m.copied dest src lo hi).set (dest + UInt32.ofNat hi) (m (src + UInt32.ofNat hi)) =
      m.copied dest src lo (hi + 1) := by
  funext a
  rw [set_apply]
  by_cases ha : dist dest a = hi
  · rw [if_pos ((eq_add_ofNat_iff hw).mpr ha), copied, ha, if_pos ⟨hlo, Nat.lt_succ_self hi⟩]
  · rw [if_neg fun h => ha ((eq_add_ofNat_iff hw).mp h), copied, copied]
    exact if_congr (by omega) rfl rfl

/-- One byte more at the lower end. -/
theorem set_copied_lower (m : Mem) (dest src : UInt32) {lo hi : ℕ} (hlo : lo < hi) (hw : lo < 2 ^ 32) :
    (m.copied dest src (lo + 1) hi).set (dest + UInt32.ofNat lo) (m (src + UInt32.ofNat lo)) =
      m.copied dest src lo hi := by
  funext a
  rw [set_apply]
  by_cases ha : dist dest a = lo
  · rw [if_pos ((eq_add_ofNat_iff hw).mpr ha), copied, ha, if_pos ⟨Nat.le_refl lo, hlo⟩]
  · rw [if_neg fun h => ha ((eq_add_ofNat_iff hw).mp h), copied, copied]
    exact if_congr (by omega) rfl rfl

/-! ### Bytes in a row -/

/-- The memory holds the bytes from an address on. -/
def Holds (m : Mem) : UInt32 → List UInt8 → Prop
  | _, [] => True
  | a, c :: bytes => m a = c ∧ m.Holds (a + 1) bytes

theorem add_one_add_ofNat (a : UInt32) (n : ℕ) : a + 1 + UInt32.ofNat n = a + UInt32.ofNat (n + 1) := by
  rw [ofNat_add_one]
  grind

theorem holds_append (m : Mem) (a : UInt32) (bytes more : List UInt8) :
    m.Holds a (bytes ++ more) ↔ m.Holds a bytes ∧ m.Holds (a + UInt32.ofNat bytes.length) more := by
  induction bytes generalizing a with
  | nil =>
    have hzero : a + UInt32.ofNat 0 = a := UInt32.add_zero a
    rw [List.nil_append, List.length_nil, hzero, Holds, true_and]
  | cons c bytes ih => rw [List.cons_append, Holds, Holds, ih, and_assoc, List.length_cons, add_one_add_ofNat]

theorem holds_iff (m : Mem) (a : UInt32) (bytes : List UInt8) :
    m.Holds a bytes ↔ ∀ i < bytes.length, m (a + UInt32.ofNat i) = bytes.getD i 0 := by
  induction bytes generalizing a with
  | nil => simp [Holds]
  | cons c bytes ih =>
    have hzero : a + UInt32.ofNat 0 = a := UInt32.add_zero a
    rw [Holds, ih, List.length_cons]
    constructor
    · rintro ⟨hc, hbytes⟩ (_ | i) hi
      · rw [hzero, hc, List.getD_cons_zero]
      · rw [← add_one_add_ofNat, hbytes i (by omega), List.getD_cons_succ]
    · intro h
      refine ⟨?_, fun i hi => ?_⟩
      · rw [← hzero, h 0 (Nat.zero_lt_succ _), List.getD_cons_zero]
      · rw [add_one_add_ofNat, h (i + 1) (by omega), List.getD_cons_succ]

/-! ### Words -/

/-- Byte `k` of a word, from the low end. -/
def byteOf (v : UInt32) (k : ℕ) : UInt8 := UInt8.ofNat (v.toNat / 2 ^ (8 * k))

/-- The word at an address. -/
def load32 (m : Mem) (a : UInt32) : UInt32 :=
  UInt32.ofNat ((m a).toNat + 2 ^ 8 * (m (a + 1)).toNat + 2 ^ 16 * (m (a + 2)).toNat + 2 ^ 24 * (m (a + 3)).toNat)

theorem toNat_load32 (m : Mem) (a : UInt32) :
    (m.load32 a).toNat =
      (m a).toNat + 2 ^ 8 * (m (a + 1)).toNat + 2 ^ 16 * (m (a + 2)).toNat + 2 ^ 24 * (m (a + 3)).toNat := by
  have h0 := (m a).toNat_lt
  have h1 := (m (a + 1)).toNat_lt
  have h2 := (m (a + 2)).toNat_lt
  have h3 := (m (a + 3)).toNat_lt
  exact toNat_ofNat_of_lt (by omega)

/-- Write a word. -/
def store32 (m : Mem) (a v : UInt32) : Mem :=
  (((m.set a (byteOf v 0)).set (a + 1) (byteOf v 1)).set (a + 2) (byteOf v 2)).set (a + 3) (byteOf v 3)

theorem store32_apply (m : Mem) (a v x : UInt32) :
    m.store32 a v x = if dist a x < 4 then byteOf v (dist a x) else m x := by
  have hat : ∀ k < 4, (x = a + UInt32.ofNat k ↔ dist a x = k) := fun k hk => eq_add_ofNat_iff (by omega)
  have h0 : x = a ↔ dist a x = 0 := by
    rw [← hat 0 (by decide)]
    exact iff_of_eq (congrArg (x = ·) (UInt32.add_zero a).symm)
  rw [store32, set_apply, set_apply, set_apply, set_apply]
  simp only [show (x = a + 3 ↔ dist a x = 3) from hat 3 (by decide),
    show (x = a + 2 ↔ dist a x = 2) from hat 2 (by decide), show (x = a + 1 ↔ dist a x = 1) from hat 1 (by decide), h0]
  split_ifs with h3 h2 h1 hz hlt hlt hlt <;> first | omega | simp_all

/-- A word depends on its four bytes. -/
theorem load32_congr {m m' : Mem} {a : UInt32} (h : ∀ x, dist a x < 4 → m x = m' x) : m.load32 a = m'.load32 a := by
  have hat : ∀ k < 4, m (a + UInt32.ofNat k) = m' (a + UInt32.ofNat k) := fun k hk =>
    h _ (by rw [dist_add_ofNat a (by omega)]; exact hk)
  have h0 := h a (by rw [dist_self]; decide)
  rw [load32, load32, h0, show m (a + 1) = m' (a + 1) from hat 1 (by decide),
    show m (a + 2) = m' (a + 2) from hat 2 (by decide), show m (a + 3) = m' (a + 3) from hat 3 (by decide)]

/-- So does one inside a block on the bytes of the block. -/
theorem load32_congr_add {m m' : Mem} {a : UInt32} {n k : ℕ} (hk : k + 4 ≤ n) (hn : n ≤ 2 ^ 32)
    (h : ∀ x, dist a x < n → m x = m' x) : m.load32 (a + UInt32.ofNat k) = m'.load32 (a + UInt32.ofNat k) :=
  load32_congr fun x hx => h x (by rw [dist_eq_add (k := k) (by omega)]; omega)

/-- Writing elsewhere leaves a word. -/
theorem load32_store32_of_apart (m : Mem) {a b v : UInt32} (h : ∀ x, dist b x < 4 → 4 ≤ dist a x) :
    (m.store32 a v).load32 b = m.load32 b :=
  load32_congr fun x hx => by rw [store32_apply, if_neg (by have := h x hx; omega)]

theorem load32_store32 (m : Mem) (a v : UInt32) : (m.store32 a v).load32 a = v := by
  have hat : ∀ k < 4, m.store32 a v (a + UInt32.ofNat k) = byteOf v k := fun k hk => by
    rw [store32_apply, dist_add_ofNat a (by omega), if_pos hk]
  have h0 : m.store32 a v a = byteOf v 0 := by
    rw [store32_apply, dist_self, if_pos (by decide)]
  have hv := v.toNat_lt
  rw [load32, h0, show m.store32 a v (a + 1) = byteOf v 1 from hat 1 (by decide),
    show m.store32 a v (a + 2) = byteOf v 2 from hat 2 (by decide),
    show m.store32 a v (a + 3) = byteOf v 3 from hat 3 (by decide)]
  apply UInt32.toNat_inj.mp
  simp only [byteOf, UInt8.toNat_ofNat', UInt32.toNat_ofNat']
  omega

end Mem

/-! ### Words apart -/

/-- Two words that have no byte in common. -/
def WordsApart (a b : UInt32) : Prop := 4 ≤ dist a b ∧ 4 ≤ dist b a

instance (a b : UInt32) : Decidable (WordsApart a b) := inferInstanceAs (Decidable (_ ∧ _))

theorem WordsApart.symm {a b : UInt32} (h : WordsApart a b) : WordsApart b a := ⟨h.2, h.1⟩

/-- Words at different offsets in a block. -/
theorem wordsApart_add (a : UInt32) {j k : UInt32} (h : WordsApart j k) : WordsApart (a + j) (a + k) := by
  have hdist : ∀ x y, dist (a + x) (a + y) = dist x y := fun x y => by
    rw [Word.dist, Word.dist]
    exact congrArg UInt32.toNat (by grind)
  rw [WordsApart, hdist, hdist]
  exact h

/-- One word after the other. -/
theorem wordsApart_of_le {a b : UInt32} (h : a.toNat + 4 ≤ b.toNat) (hb : b.toNat + 4 ≤ 2 ^ 32) : WordsApart a b := by
  have hab : dist a b = b.toNat - a.toNat := toNat_sub_of_le (by omega)
  have hba : dist b a = (2 ^ 32 - b.toNat + a.toNat) % 2 ^ 32 := UInt32.toNat_sub a b
  rw [WordsApart, hab, hba]
  omega

/-- A byte of one is not of the other. -/
theorem WordsApart.le_dist {a b x : UInt32} (h : WordsApart a b) (hx : dist b x < 4) : 4 ≤ dist a x := by
  -- `x` is less than 4 above `b`, which is at least 4 above `a` and at most `2 ^ 32 - 4`
  have hba := h.2
  have hab := h.1
  have hsum : dist a b + dist b a = 2 ^ 32 := by
    have hdist := dist_add_left_of_lt (k := dist a b) (a := a) (b := a) (by rw [dist_self]; omega) (dist_lt a b)
    rw [add_dist, dist_self] at hdist
    omega
  have hx' := dist_eq_add (a := a) (b := x) (k := dist a b) (by rw [add_dist]; omega)
  rw [add_dist] at hx'
  omega

/-- Writing one word leaves the other. -/
theorem load32_store32_apart (m : Mem) {a b : UInt32} (h : WordsApart a b) (v : UInt32) :
    (m.store32 a v).load32 b = m.load32 b :=
  Mem.load32_store32_of_apart m fun _ hx => h.le_dist hx

end MoltarOS.Lib
