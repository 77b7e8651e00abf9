import MoltarOS.Lib.Memory
import Mathlib.Logic.Function.Iterate

/-!
# Relocation

A stretch of memory is copied word by word to another place, each word passing through
a function that redirects what it takes for pointers into the stretch.

## What is proved

* `copyLoop_spec` — the loop ends, every slot arrives at its displaced address, and
  nothing else changes.
* `Relocated.link` — where each pointer is redirected by the displacement of the slots,
  a chain of pointers through the slots becomes the chain of the displaced slots.
-/

namespace MoltarOS.Lib

open Word

/-! ### The loop -/

/-- `n` iterations of `*dst = f(*src), src += 4, dst += 4`. -/
def copyWords (f : UInt32 → UInt32) (m : Mem) (src dst : UInt32) : ℕ → Mem
  | 0 => m
  | n + 1 => copyWords f (m.store32 dst (f (m.load32 src))) (src + 4) (dst + 4) n

/-- `for (; src < hi; src += 4, dst += 4) *dst = f(*src);`, where `none` means that the loop has
not ended after `fuel` iterations. -/
def copyLoop (f : UInt32 → UInt32) (hi : UInt32) : ℕ → Mem → UInt32 → UInt32 → Option Mem
  | 0, m, src, _ => if src < hi then none else some m
  | fuel + 1, m, src, dst =>
    if src < hi then copyLoop f hi fuel (m.store32 dst (f (m.load32 src))) (src + 4) (dst + 4) else some m

variable {f : UInt32 → UInt32}

theorem copyLoop_eq {hi src dst : UInt32} {m : Mem} {n fuel : ℕ} (hn : src.toNat + 4 * n = hi.toNat)
    (hfuel : n ≤ fuel) :
    copyLoop f hi fuel m src dst = some (copyWords f m src dst n) := by
  have hhi := hi.toNat_lt
  induction fuel generalizing m src dst n with
  | zero =>
    obtain rfl : n = 0 := by omega
    rw [copyLoop, if_neg (by rw [UInt32.lt_iff_toNat_lt]; omega), copyWords]
  | succ fuel ih =>
    cases n with
    | zero => rw [copyLoop, if_neg (by rw [UInt32.lt_iff_toNat_lt]; omega), copyWords]
    | succ n =>
      have hfour : (4 : UInt32).toNat = 4 := rfl
      have hsrc : (src + 4).toNat = src.toNat + 4 := by rw [toNat_add_of_lt (by omega), hfour]
      rw [copyLoop, if_pos (by rw [UInt32.lt_iff_toNat_lt]; omega), copyWords]
      exact ih (by omega) (by omega)

/-- Only the bytes of the destination change. -/
theorem copyWords_frame {m : Mem} {src dst x : UInt32} {n : ℕ} (h : 4 * n ≤ dist dst x) :
    copyWords f m src dst n x = m x := by
  induction n generalizing m src dst with
  | zero => rfl
  | succ n ih =>
    have hnext : dist (dst + 4) x = dist dst x - 4 := dist_add_left (k := 4) (by omega)
    rw [copyWords, ih (by omega), Mem.store32_apply, if_neg (by omega)]

/-- Every word arrives, read before the copy reaches it. -/
theorem load32_copyWords {m : Mem} {src dst : UInt32} {n i : ℕ} (hi : i < n)
    (hdisj : ∀ x, dist src x < 4 * n → 4 * n ≤ dist dst x) :
    (copyWords f m src dst n).load32 (dst + UInt32.ofNat (4 * i)) = f (m.load32 (src + UInt32.ofNat (4 * i))) := by
  induction n generalizing m src dst i with
  | zero => omega
  | succ n ih =>
    have hroom : 4 * (n + 1) < 2 ^ 32 :=
      lt_of_le_of_lt (hdisj src (by rw [dist_self]; omega)) (dist_lt dst src)
    rw [copyWords]
    cases i with
    | zero =>
      have hzero : ∀ a : UInt32, a + UInt32.ofNat (4 * 0) = a := UInt32.add_zero
      rw [hzero, hzero]
      refine (Mem.load32_congr fun x hx => copyWords_frame ?_).trans (Mem.load32_store32 m dst _)
      have hwrap : dist (dst + 4) x + 4 = dist dst x + 2 ^ 32 := dist_add_left_of_lt (k := 4) hx (by decide)
      omega
    | succ i =>
      have hshift : ∀ a : UInt32, a + UInt32.ofNat (4 * (i + 1)) = a + 4 + UInt32.ofNat (4 * i) := fun a => by
        rw [Nat.mul_succ, UInt32.ofNat_add]
        grind
      have hnext : ∀ x, 4 ≤ dist dst x → dist (dst + 4) x = dist dst x - 4 := fun x hx => dist_add_left (k := 4) hx
      have hrest : ∀ x, dist (src + 4) x < 4 * n → 4 * n ≤ dist (dst + 4) x := fun x hx => by
        have hx' : dist src x = dist (src + 4) x + 4 := dist_eq_add (k := 4) (by
          change dist (src + 4) x + 4 < 2 ^ 32
          omega)
        have hfar := hdisj x (by omega)
        rw [hnext x (by omega)]
        omega
      rw [hshift, hshift, ih (by omega) hrest]
      congr 1
      refine Mem.load32_store32_of_apart m fun x hx => ?_
      -- the word read lies in the source, beyond the word just written
      rw [← hshift] at hx
      have hx' : dist src x = dist (src + UInt32.ofNat (4 * (i + 1))) x + 4 * (i + 1) := dist_eq_add (by omega)
      have hfar := hdisj x (by omega)
      omega

/-! ### Slots -/

/-- The address of a word from `lo` up to `hi`. -/
structure Slot (lo hi a : UInt32) : Prop where
  /-- It is not below. -/
  lo : lo.toNat ≤ a.toNat
  /-- It is below the end. -/
  hi : a.toNat < hi.toNat
  /-- It is aligned. -/
  aligned : a.toNat % 4 = 0

/-- **The loop ends, and every slot is copied.** -/
theorem copyLoop_spec (f : UInt32 → UInt32) (m : Mem) (lo hi dst : UInt32) (fuel : ℕ)
    (hlo : lo.toNat % 4 = 0) (hhi : hi.toNat % 4 = 0)
    (hle : lo.toNat ≤ hi.toNat) (hfuel : hi.toNat ≤ 4 * fuel)
    (hdisj : ∀ x : UInt32, lo.toNat ≤ x.toNat → x.toNat < hi.toNat → hi.toNat - lo.toNat ≤ dist dst x) :
    ∃ m', copyLoop f hi fuel m lo dst = some m' ∧
      (∀ a, Slot lo hi a → m'.load32 (a + (dst - lo)) = f (m.load32 a)) ∧
      ∀ x, hi.toNat - lo.toNat ≤ dist dst x → m' x = m x := by
  obtain ⟨n, hn⟩ : ∃ n, lo.toNat + 4 * n = hi.toNat := ⟨(hi.toNat - lo.toNat) / 4, by omega⟩
  have hlt := hi.toNat_lt
  refine ⟨copyWords f m lo dst n, copyLoop_eq hn (by omega), fun a ha => ?_, fun x hx => copyWords_frame (by omega)⟩
  obtain ⟨i, hi'⟩ : ∃ i, lo.toNat + 4 * i = a.toNat :=
    ⟨(a.toNat - lo.toNat) / 4, by have := ha.lo; have := ha.aligned; omega⟩
  have hin : i < n := by have := ha.hi; omega
  have hoff : a = lo + UInt32.ofNat (4 * i) := by
    apply UInt32.toNat_inj.mp
    rw [toNat_add_ofNat (by omega), hi']
  have hdst : a + (dst - lo) = dst + UInt32.ofNat (4 * i) := by
    rw [hoff]
    grind
  rw [hdst, hoff]
  refine load32_copyWords hin fun x hx => ?_
  rw [dist_lt_iff (by omega)] at hx
  have := hdisj x hx.1 (by omega)
  omega

/-! ### Images -/

/-- The words that `m` has in the slots `S` are in `m'` at a displacement of `d`, those that
are pointers (`P`) displaced themselves. -/
structure Relocated (m m' : Mem) (S P : UInt32 → Prop) (d : UInt32) : Prop where
  /-- Pointers are redirected. -/
  pointer : ∀ a, S a → P (m.load32 a) → m'.load32 (a + d) = m.load32 a + d
  /-- Other words stay. -/
  other : ∀ a, S a → ¬ P (m.load32 a) → m'.load32 (a + d) = m.load32 a

/-- The `k`-th link of the chain of pointers that starts at `fp`. -/
def link (m : Mem) (fp : UInt32) (k : ℕ) : UInt32 := m.load32^[k] fp

@[simp] theorem link_zero (m : Mem) (fp : UInt32) : link m fp 0 = fp := rfl

theorem link_succ (m : Mem) (fp : UInt32) (k : ℕ) : link m fp (k + 1) = m.load32 (link m fp k) :=
  Function.iterate_succ_apply' _ _ _

/-- **Chains are relocated link by link**, as long as their links are in slots and their
words are pointers. -/
theorem Relocated.link {m m' : Mem} {S P : UInt32 → Prop} {d fp : UInt32} (h : Relocated m m' S P d) {k : ℕ}
    (hS : ∀ j < k, S (link m fp j)) (hP : ∀ j < k, P (link m fp (j + 1))) : link m' (fp + d) k = link m fp k + d := by
  induction k with
  | zero => rfl
  | succ k ih =>
    have hk := ih (fun j hj => hS j (by omega)) fun j hj => hP j (by omega)
    have hptr := hP k (by omega)
    rw [link_succ] at hptr
    rw [link_succ, link_succ, hk]
    exact h.pointer _ (hS k (by omega)) hptr

end MoltarOS.Lib
