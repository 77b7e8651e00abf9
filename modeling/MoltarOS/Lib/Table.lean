import Mathlib.Data.List.Basic
import MoltarOS.Lib.Memory

/-!
# Tables in byte memory

A table is a row of entries of one size. An entry is written field by field: bytes, little-endian
halfwords, and bit fields of a byte. A `Table` carries the proofs that its entries are apart and that an
entry written reads as what was written; after any sequence of writes each entry reads as the last
one to it says.
-/

namespace MoltarOS.Lib

open Word

namespace Mem

/-! ### Fields -/

@[simp] theorem set_add_self (m : Mem) (a k : UInt32) (v : UInt8) : m.set (a + k) v (a + k) = v := by
  rw [set_apply, if_pos rfl]

/-- A byte written to the field at offset `k` leaves that at offset `j`. -/
theorem set_add_of_ne (m : Mem) (a : UInt32) {j k : UInt32} (v : UInt8) (h : j ≠ k) :
    m.set (a + k) v (a + j) = m (a + j) :=
  set_of_ne m v (mt (UInt32.add_right_inj a).mp h)

/-- Write a halfword. -/
def store16 (m : Mem) (a : UInt32) (v : UInt16) : Mem := (m.set a v.toUInt8).set (a + 1) (v >>> 8).toUInt8

theorem store16_add (m : Mem) (a k : UInt32) (v : UInt16) :
    m.store16 (a + k) v = (m.set (a + k) v.toUInt8).set (a + (k + 1)) (v >>> 8).toUInt8 := by
  rw [store16, UInt32.add_assoc]

/-- The halfword at an address. -/
def load16 (m : Mem) (a : UInt32) : UInt16 := UInt16.ofNat ((m a).toNat + 2 ^ 8 * (m (a + 1)).toNat)

theorem load16_congr {m m' : Mem} {a : UInt32} (h : ∀ x, dist a x < 2 → m x = m' x) : m.load16 a = m'.load16 a := by
  rw [load16, load16, h a (by rw [dist_self]; decide), h (a + 1) (by rw [dist_add]; decide)]

theorem load16_store16 (m : Mem) (a : UInt32) (v : UInt16) : (m.store16 a v).load16 a = v := by
  have hne : a ≠ a + 1 := by
    intro h
    have hdist := dist_add a 1
    rw [← h, dist_self] at hdist
    cases hdist
  have h0 : m.store16 a v a = v.toUInt8 := by
    rw [store16, set_of_ne _ _ hne, set_apply, if_pos rfl]
  have h1 : m.store16 a v (a + 1) = (v >>> 8).toUInt8 := by
    rw [store16, set_apply, if_pos rfl]
  rw [load16, h0, h1, toNat_halfword, UInt16.ofNat_toNat]

/-- A byte with its bits `lo` up to `lo + w` replaced by the low bits of `v`. -/
def insertBits (b : UInt8) (lo w : ℕ) (v : UInt32) : UInt8 :=
  UInt8.ofNat (b.toNat / 2 ^ (lo + w) * 2 ^ (lo + w) + v.toNat % 2 ^ w * 2 ^ lo + b.toNat % 2 ^ lo)

/-- Write bits `lo` up to `lo + w` of a byte. -/
def storeBits (m : Mem) (a : UInt32) (lo w : ℕ) (v : UInt32) : Mem := m.set a (insertBits (m a) lo w v)

/-- Both halves of a byte replaced. -/
theorem insertBits_halves (b : UInt8) (v w : UInt32) :
    (insertBits (insertBits b 0 4 v) 4 4 w).toNat = v.toNat % 2 ^ 4 + 2 ^ 4 * (w.toNat % 2 ^ 4) := by
  have hb := b.toNat_lt
  simp only [insertBits, UInt8.toNat_ofNat']
  omega

/-! ### Frames -/

/-- Only the `n` bytes from `a` on have changed. -/
def SameOutside (m m' : Mem) (a : UInt32) (n : ℕ) : Prop := ∀ x, n ≤ dist a x → m' x = m x

theorem SameOutside.refl (m : Mem) (a : UInt32) (n : ℕ) : SameOutside m m a n := fun _ _ => rfl

theorem SameOutside.set {m m' : Mem} {a : UInt32} {n : ℕ} (h : SameOutside m m' a n) {k : UInt32} (hk : k.toNat < n)
    (v : UInt8) : SameOutside m (m'.set (a + k) v) a n := by
  intro x hx
  have hne : x ≠ a + k := by
    rintro rfl
    rw [dist_add] at hx
    omega
  rw [set_of_ne m' v hne]
  exact h x hx

theorem SameOutside.store16 {m m' : Mem} {a : UInt32} {n : ℕ} (h : SameOutside m m' a n) {k : UInt32}
    (hk : k.toNat + 1 < n) (hn : n ≤ 2 ^ 32) (v : UInt16) : SameOutside m (m'.store16 (a + k) v) a n := by
  have hk1 : (k + 1).toNat = k.toNat + 1 := toNat_add_of_lt (by rw [UInt32.toNat_one]; omega)
  rw [store16_add]
  exact (h.set (by omega) _).set (by omega) _

theorem SameOutside.store32 {m m' : Mem} {a : UInt32} {n : ℕ} (h : SameOutside m m' a n) {k : UInt32}
    (hk : k.toNat + 3 < n) (hn : n ≤ 2 ^ 32) (v : UInt32) : SameOutside m (m'.store32 (a + k) v) a n := by
  intro x hx
  have hfar : ¬ dist (a + k) x < 4 := fun hlt => by
    rw [← UInt32.ofNat_toNat (x := k)] at hlt
    have hadd := dist_eq_add (a := a) (b := x) (k := k.toNat) (by omega)
    omega
  rw [store32_apply, if_neg hfar]
  exact h x hx

theorem SameOutside.storeBits {m m' : Mem} {a : UInt32} {n : ℕ} (h : SameOutside m m' a n) {k : UInt32}
    (hk : k.toNat < n) (lo w : ℕ) (v : UInt32) : SameOutside m (m'.storeBits (a + k) lo w v) a n := h.set hk _

end Mem

/-! ### Tables -/

/-- Where entry `i` of the table at `base` is, as the processor and a compiler compute it. -/
def entryAt (base size i : UInt32) : UInt32 := base + size * i

/-- An entry's offset from the base does not wrap around. -/
theorem entryAt_eq (base size i : UInt32) :
    entryAt base size i = base + UInt32.ofNat (size.toNat * i.toNat) := by
  rw [entryAt, UInt32.ofNat_mul, UInt32.ofNat_toNat, UInt32.ofNat_toNat]

/-- The bytes of an entry, counted from the base. -/
theorem dist_entryAt_lt_iff (base x : UInt32) {size i : UInt32} (hi : size.toNat * (i.toNat + 1) ≤ 2 ^ 32) :
    dist (entryAt base size i) x < size.toNat ↔
      size.toNat * i.toNat ≤ dist base x ∧ dist base x < size.toNat * (i.toNat + 1) := by
  have hexpand := Nat.mul_add_one size.toNat i.toNat
  rcases Nat.eq_zero_or_pos size.toNat with h0 | hpos
  · rw [h0]
    omega
  rw [entryAt_eq]
  conv_lhs => rw [← add_dist base x]
  rw [dist_ofNat_lt_iff base (dist_lt base x) (by omega) (by omega)]
  omega

/-- The entries of a table that does not fill more than the address space are apart. -/
theorem entryAt_apart (base : UInt32) {size i j x : UInt32} (hi : size.toNat * (i.toNat + 1) ≤ 2 ^ 32)
    (hj : size.toNat * (j.toNat + 1) ≤ 2 ^ 32) (hne : i ≠ j) (hx : dist (entryAt base size j) x < size.toNat) :
    size.toNat ≤ dist (entryAt base size i) x := by
  by_contra hlt
  have hin := (dist_entryAt_lt_iff base x hi).mp (not_le.mp hlt)
  have hjn := (dist_entryAt_lt_iff base x hj).mp hx
  rcases Nat.lt_or_gt_of_ne (mt UInt32.toNat_inj.mp hne) with h | h
  · have hmul : size.toNat * (i.toNat + 1) ≤ size.toNat * j.toNat := Nat.mul_le_mul_left _ h
    omega
  · have hmul : size.toNat * (j.toNat + 1) ≤ size.toNat * i.toNat := Nat.mul_le_mul_left _ h
    omega

/-- A table: where its entries are, how one is written, and what it then reads as. -/
structure Table (ι δ ρ : Type) where
  /-- Where an entry is. -/
  place : ι → UInt32
  /-- The bytes of an entry. -/
  size : ℕ
  /-- Write an entry. -/
  write : Mem → ι → δ → Mem
  /-- Read an entry. -/
  read : Mem → UInt32 → ρ
  /-- What it says. -/
  means : δ → ρ
  /-- No byte is in two entries. -/
  apart : ∀ {i j : ι} {x : UInt32}, i ≠ j → dist (place j) x < size → size ≤ dist (place i) x
  /-- Nothing else is written. -/
  outside : ∀ m i d, Mem.SameOutside m (write m i d) (place i) size
  /-- Nothing else is read. -/
  read_congr : ∀ {m m' : Mem} {a : UInt32}, (∀ x, dist a x < size → m x = m' x) → read m a = read m' a
  /-- What is written is what is read. -/
  read_write : ∀ m i d, read (write m i d) (place i) = means d

namespace Table

variable {ι δ ρ : Type} (t : Table ι δ ρ)

/-- One write after the other. -/
def writes (m : Mem) (ws : List (ι × δ)) : Mem := ws.foldl (fun m w => t.write m w.1 w.2) m

theorem writes_append (m : Mem) (ws vs : List (ι × δ)) : t.writes m (ws ++ vs) = t.writes (t.writes m ws) vs :=
  List.foldl_append

/-- A loop that writes entries, each with what it is to hold in the end. -/
theorem foldl_write {κ : Type} (m : Mem) {ns : List κ} {place : κ → ι} {entry : κ → δ} {final : ι → δ}
    (h : ∀ n ∈ ns, entry n = final (place n)) :
    ns.foldl (fun m n => t.write m (place n) (entry n)) m = t.writes m ((ns.map place).map fun i => (i, final i)) := by
  rw [writes, List.foldl_map, List.foldl_map]
  exact List.foldl_ext _ _ _ fun m n hn => by rw [h n hn]

/-- A write leaves the other entries. -/
theorem read_write_of_ne (m : Mem) {i j : ι} (d : δ) (h : i ≠ j) :
    t.read (t.write m i d) (t.place j) = t.read m (t.place j) :=
  t.read_congr fun x hx => t.outside m i d x (t.apart h hx)

/-- So do any number of writes to others. -/
theorem read_writes_of_not_mem (m : Mem) {ws : List (ι × δ)} {j : ι} (h : ∀ w ∈ ws, w.1 ≠ j) :
    t.read (t.writes m ws) (t.place j) = t.read m (t.place j) := by
  induction ws generalizing m with
  | nil => rfl
  | cons w ws ih =>
    rw [writes, List.foldl_cons, ← writes, ih _ fun v hv => h v (List.mem_cons_of_mem w hv)]
    exact t.read_write_of_ne m w.2 (h w List.mem_cons_self)

/-- What is in no entry stays. -/
theorem writes_outside (m : Mem) (ws : List (ι × δ)) {x : UInt32} (hx : ∀ i, t.size ≤ dist (t.place i) x) :
    t.writes m ws x = m x := by
  induction ws generalizing m with
  | nil => rfl
  | cons w ws ih =>
    rw [writes, List.foldl_cons, ← writes, ih]
    exact t.outside m w.1 w.2 x (hx w.1)

/-- **An entry reads as the last write to it says.** -/
theorem read_writes_last (m : Mem) (before : List (ι × δ)) {after : List (ι × δ)} {i : ι} (d : δ)
    (h : ∀ w ∈ after, w.1 ≠ i) : t.read (t.writes m (before ++ (i, d) :: after)) (t.place i) = t.means d := by
  rw [writes_append, writes, List.foldl_cons, ← writes, t.read_writes_of_not_mem _ h]
  exact t.read_write _ i d

/-- Where no entry is written twice, each reads as the write to it says. -/
theorem read_writes_of_nodup (m : Mem) {ws : List (ι × δ)} (hws : (ws.map Prod.fst).Nodup) {i : ι} {d : δ}
    (h : (i, d) ∈ ws) : t.read (t.writes m ws) (t.place i) = t.means d := by
  obtain ⟨before, after, rfl⟩ := List.append_of_mem h
  refine t.read_writes_last m before d fun w hw he => ?_
  rw [List.map_append, List.map_cons] at hws
  have hnot := (List.nodup_cons.mp (List.nodup_append.mp hws).2.1).1
  exact hnot (List.mem_map.mpr ⟨w, hw, he⟩)

end Table

end MoltarOS.Lib
