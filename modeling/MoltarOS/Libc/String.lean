import Mathlib.Data.List.GetD
import MoltarOS.Lib.Memory

/-!
# The byte routines of libc

`memset`, `memcpy`, `memmove` and `strlen` of `libc/string` as loops over the byte memory.

## What is proved

After `memset` every address within `len` of `buf`, counted upwards with wrap-around, holds the
byte. An upward copy is right when it reads no byte that it has written; so is `memcpy` for
disjoint blocks, and `memmove` for all blocks that do not run past the end of the address space,
as it copies upwards to a lower address and downwards to a higher one.
-/

namespace MoltarOS.Libc

open MoltarOS.Lib MoltarOS.Lib.Word

/-- The first `n` iterations of `for(size_t i = 0; i < len; i++) b[i] = (unsigned char) val;`. -/
def memsetLoop (m : Mem) (buf : UInt32) (val : UInt8) : ℕ → Mem
  | 0 => m
  | n + 1 => (memsetLoop m buf val n).set (buf + UInt32.ofNat n) val

/-- `memset(buf, val, len)`; the returned `buf` is not used by any caller. -/
def memset (m : Mem) (buf : UInt32) (val : UInt8) (len : UInt32) : Mem :=
  memsetLoop m buf val len.toNat

theorem memsetLoop_apply (m : Mem) (buf : UInt32) (val : UInt8) {n : ℕ} (hn : n ≤ 2 ^ 32)
    (a : UInt32) : memsetLoop m buf val n a = if dist buf a < n then val else m a := by
  induction n with
  | zero => simp [memsetLoop]
  | succ n ih =>
    rw [memsetLoop, Mem.set_apply, ih (by omega)]
    by_cases ha : dist buf a = n
    · rw [if_pos ((eq_add_ofNat_iff (by omega)).mpr ha), if_pos (by omega)]
    · rw [if_neg fun h => ha ((eq_add_ofNat_iff (by omega)).mp h)]
      by_cases hlt : dist buf a < n
      · rw [if_pos hlt, if_pos (by omega)]
      · rw [if_neg hlt, if_neg (by omega)]

theorem memset_apply (m : Mem) (buf : UInt32) (val : UInt8) (len a : UInt32) :
    memset m buf val len a = if dist buf a < len.toNat then val else m a :=
  memsetLoop_apply m buf val (Nat.le_of_lt len.toNat_lt) a

/-- A word of a cleared block. -/
theorem load32_memset_zero (m : Mem) (buf : UInt32) {len k : UInt32} (hk : k.toNat + 4 ≤ len.toNat) :
    (memset m buf 0 len).load32 (buf + k) = 0 := by
  have hzero : ∀ x, dist (buf + k) x < 4 → memset m buf 0 len x = (fun _ => 0 : Mem) x := fun x hx => by
    have hlen := len.toNat_lt
    have hdist := dist_eq_add (a := buf) (b := x) (k := k.toNat) (by rw [UInt32.ofNat_toNat]; omega)
    rw [UInt32.ofNat_toNat] at hdist
    rw [memset_apply, if_pos (by omega)]
  rw [Mem.load32_congr hzero]
  rfl

/-- A word that overlaps none of the block. -/
theorem load32_memset_apart (m : Mem) (buf : UInt32) (val : UInt8) {len b : UInt32} (hlen : 4 ≤ len.toNat)
    (h : ∀ k : UInt32, k.toNat + 4 ≤ len.toNat → WordsApart (buf + k) b) :
    (memset m buf val len).load32 b = m.load32 b := by
  refine Mem.load32_congr fun x hx => ?_
  rw [memset_apply, if_neg fun hin => ?_]
  -- the last word of the block that `x` is in
  have htop := len.toNat_lt
  have hk : (UInt32.ofNat (min (dist buf x) (len.toNat - 4))).toNat = min (dist buf x) (len.toNat - 4) :=
    toNat_ofNat_of_lt (by omega)
  have hapart := (h (UInt32.ofNat (min (dist buf x) (len.toNat - 4))) (by omega)).le_dist hx
  rw [Word.dist_add_left (by omega)] at hapart
  omega

/-! ### Copying -/

/-- The first `n` iterations of `for(size_t i = 0; i < len; i++) d[i] = s[i];`. -/
def copyUp (m : Mem) (d s : UInt32) : ℕ → Mem
  | 0 => m
  | n + 1 =>
    let m := copyUp m d s n
    m.set (d + UInt32.ofNat n) (m (s + UInt32.ofNat n))

/-- `for (size_t i = len; i != 0; i--) d[i - 1] = s[i - 1];`, from `i` on. -/
def copyDown (m : Mem) (d s : UInt32) : ℕ → Mem
  | 0 => m
  | i + 1 => copyDown (m.set (d + UInt32.ofNat i) (m (s + UInt32.ofNat i))) d s i

/-- `memcpy(dest, src, len)`, with what it returns. -/
def memcpy (m : Mem) (dest src len : UInt32) : Mem × UInt32 :=
  if len = 0 then (m, 0) else (copyUp m dest src len.toNat, dest)

/-- `memmove(dest, src, len)`, with what it returns. -/
def memmove (m : Mem) (dest src len : UInt32) : Mem × UInt32 :=
  if dest < src then (copyUp m dest src len.toNat, dest) else (copyDown m dest src len.toNat, dest)

/-- Going up, the copy is right as long as the next byte to read is not one of those written. -/
theorem copyUp_eq (m : Mem) (d s : UInt32) {n : ℕ} (hn : n ≤ 2 ^ 32)
    (hread : ∀ i < n, i ≤ dist d (s + UInt32.ofNat i)) :
    copyUp m d s n = m.copied d s 0 n := by
  induction n with
  | zero => exact (m.copied_self d s 0).symm
  | succ n ih =>
    have hsrc : m.copied d s 0 n (s + UInt32.ofNat n) = m (s + UInt32.ofNat n) :=
      m.copied_of_not (by have := hread n (Nat.lt_succ_self n); omega)
    rw [copyUp, ih (by omega) fun i hi => hread i (by omega), hsrc]
    exact m.set_copied_upper d s (Nat.zero_le n) (by omega)

/-- Going down, the bytes from `i` on are copied and what is below is still to be read. -/
theorem copyDown_eq (m : Mem) (d s : UInt32) {n i : ℕ} (hi : i ≤ n) (hn : n ≤ 2 ^ 32)
    (hread : ∀ j < i, ∀ k, j < k → k < n → dist d (s + UInt32.ofNat j) ≠ k) :
    copyDown (m.copied d s i n) d s i = m.copied d s 0 n := by
  induction i with
  | zero => rfl
  | succ i ih =>
    have hsrc : m.copied d s (i + 1) n (s + UInt32.ofNat i) = m (s + UInt32.ofNat i) :=
      m.copied_of_not fun h => hread i (Nat.lt_succ_self i) _ h.1 h.2 rfl
    rw [copyDown, hsrc, m.set_copied_lower d s (by omega) (by omega)]
    exact ih (by omega) fun j hj => hread j (by omega)

section Blocks

variable {d s : UInt32} {n : ℕ}

/-- To a lower address, or to one above the block, the bytes still to be read are above those written. -/
theorem le_dist_of_apart (hd : d.toNat + n ≤ 2 ^ 32) (hs : s.toNat + n ≤ 2 ^ 32)
    (h : d.toNat ≤ s.toNat ∨ s.toNat + n ≤ d.toNat) : ∀ i < n, i ≤ dist d (s + UInt32.ofNat i) := by
  intro i hi
  have hsi := toNat_add_ofNat (a := s) (n := i) (by omega)
  refine not_lt.mp fun hlt => ?_
  have hspan := (dist_lt_iff (by omega)).mp hlt
  omega

/-- To a higher address the bytes still to be read are below those written. -/
theorem copyDown_of_le (m : Mem) (hd : d.toNat + n ≤ 2 ^ 32) (hs : s.toNat + n ≤ 2 ^ 32) (h : s.toNat ≤ d.toNat) :
    copyDown m d s n = m.copied d s 0 n := by
  have hgo := copyDown_eq m d s (Nat.le_refl n) (by omega) fun i hi k hik hk hdist => by
    have hsi := toNat_add_ofNat (a := s) (n := i) (by omega)
    have hdk := toNat_add_ofNat (a := d) (n := k) (by omega)
    rw [(eq_add_ofNat_iff (by omega)).mpr hdist, hdk] at hsi
    omega
  rwa [m.copied_self d s n] at hgo

end Blocks

theorem memmove_eq (m : Mem) {dest src len : UInt32} (hd : dest.toNat + len.toNat ≤ 2 ^ 32)
    (hs : src.toNat + len.toNat ≤ 2 ^ 32) : memmove m dest src len = (m.copied dest src 0 len.toNat, dest) := by
  by_cases hlt : dest < src
  · rw [memmove, if_pos hlt, copyUp_eq m dest src (Nat.le_of_lt len.toNat_lt)
      (le_dist_of_apart hd hs (.inl (UInt32.lt_iff_toNat_lt.mp hlt).le))]
  · rw [memmove, if_neg hlt, copyDown_of_le m hd hs (UInt32.le_iff_toNat_le.mp (UInt32.not_lt.mp hlt))]

theorem memcpy_copied (m : Mem) {dest src len : UInt32}
    (hread : ∀ i < len.toNat, i ≤ dist dest (src + UInt32.ofNat i)) :
    (memcpy m dest src len).1 = m.copied dest src 0 len.toNat := by
  by_cases hlen : len = 0
  · rw [memcpy, if_pos hlen, hlen]
    exact (m.copied_self dest src 0).symm
  · rw [memcpy, if_neg hlen]
    exact copyUp_eq m dest src (Nat.le_of_lt len.toNat_lt) hread

theorem memcpy_eq (m : Mem) {dest src len : UInt32} (hd : dest.toNat + len.toNat ≤ 2 ^ 32)
    (hs : src.toNat + len.toNat ≤ 2 ^ 32)
    (hdisj : dest.toNat + len.toNat ≤ src.toNat ∨ src.toNat + len.toNat ≤ dest.toNat) :
    (memcpy m dest src len).1 = m.copied dest src 0 len.toNat :=
  memcpy_copied m (le_dist_of_apart hd hs (hdisj.imp_left fun h => by omega))

/-- **`memmove` moves the block, whatever the overlap**: the bytes at `dest` are those that were at
`src`, no other byte changes, `dest` is returned; and for disjoint blocks the memory is the one `memcpy`
leaves. -/
theorem memmove_moves (m : Mem) (dest src len : UInt32) (hd : dest.toNat + len.toNat ≤ 2 ^ 32)
    (hs : src.toNat + len.toNat ≤ 2 ^ 32) :
    (∀ i < len.toNat, (memmove m dest src len).1 (dest + UInt32.ofNat i) = m (src + UInt32.ofNat i)) ∧
      (∀ a, (∀ i < len.toNat, a ≠ dest + UInt32.ofNat i) → (memmove m dest src len).1 a = m a) ∧
      (memmove m dest src len).2 = dest ∧
      (dest.toNat + len.toNat ≤ src.toNat ∨ src.toNat + len.toNat ≤ dest.toNat →
        (memmove m dest src len).1 = (memcpy m dest src len).1) := by
  have hlen := len.toNat_lt
  rw [memmove_eq m hd hs]
  refine ⟨fun i hi => m.copied_add_ofNat dest src (Nat.zero_le i) hi (by omega), fun a ha => ?_, rfl, fun hdisj => ?_⟩
  · exact m.copied_of_not fun h => ha _ h.2 (add_dist dest a).symm
  · exact (memcpy_eq m hd hs hdisj).symm

/-- Two overlapping bytes, upwards and downwards. -/
theorem memmove_moves_overlap :
    (memmove (fun a => a.toUInt8) 11 10 2).1 12 = 11 ∧ (memmove (fun a => a.toUInt8) 10 11 2).1 10 = 11 :=
  ⟨(memmove_moves _ 11 10 2 (by decide) (by decide)).1 1 (by decide),
    (memmove_moves _ 10 11 2 (by decide) (by decide)).1 0 (by decide)⟩

/-! ### Strings -/

/-- `while (string[result]) result++;`, at most so many turns. -/
def strlenLoop (m : Mem) (string : UInt32) : ℕ → ℕ → ℕ
  | 0, result => result
  | fuel + 1, result => if m (string + UInt32.ofNat result) = 0 then result else strlenLoop m string fuel (result + 1)

/-- `strlen(string)`, for a string that ends within the address space. -/
def strlen (m : Mem) (string : UInt32) : ℕ := strlenLoop m string (2 ^ 32) 0

/-- The memory holds `text` and a 0 from `string` on. -/
structure CString (m : Mem) (string : UInt32) (text : List UInt8) : Prop where
  /-- The characters and the 0. -/
  char : ∀ i ≤ text.length, m (string + UInt32.ofNat i) = text.getD i 0
  /-- The 0 is the first. -/
  nul : 0 ∉ text
  /-- The string does not come round to itself. -/
  length : text.length < 2 ^ 32

theorem cString_iff {m : Mem} {string : UInt32} {text : List UInt8} :
    CString m string text ↔ m.Holds string (text ++ [0]) ∧ 0 ∉ text ∧ text.length < 2 ^ 32 := by
  have hchar : m.Holds string (text ++ [0]) ↔ ∀ i ≤ text.length, m (string + UInt32.ofNat i) = text.getD i 0 := by
    rw [Mem.holds_iff, List.length_append, List.length_singleton]
    refine forall_congr' fun i => imp_congr_ctx Nat.lt_succ_iff fun hi => ?_
    by_cases hlt : i < text.length
    · rw [List.getD_append _ _ _ _ hlt]
    · obtain rfl : i = text.length := by omega
      rw [List.getD_append_right _ _ _ _ le_rfl, Nat.sub_self, List.getD_cons_zero, List.getD_eq_default _ _ le_rfl]
  rw [hchar]
  exact ⟨fun h => ⟨h.char, h.nul, h.length⟩, fun h => ⟨h.1, h.2.1, h.2.2⟩⟩

/-- What the string at an address is. -/
def cText (m : Mem) (string : UInt32) : List UInt8 :=
  (List.range (strlen m string)).map fun i => m (string + UInt32.ofNat i)

theorem strlenLoop_eq {m : Mem} {string : UInt32} {text : List UInt8} (h : CString m string text) {fuel i : ℕ}
    (hi : i ≤ text.length) (hfuel : text.length < i + fuel) : strlenLoop m string fuel i = text.length := by
  induction fuel generalizing i with
  | zero => omega
  | succ fuel ih =>
    rw [strlenLoop, h.char i hi]
    by_cases hend : i = text.length
    · rw [hend, List.getD_eq_default _ _ le_rfl, if_pos rfl]
    · have hlt : i < text.length := by omega
      have hchar : text.getD i 0 ≠ 0 := fun hzero => by
        rw [List.getD_eq_getElem _ _ hlt] at hzero
        exact h.nul (hzero ▸ List.getElem_mem hlt)
      rw [if_neg hchar]
      exact ih hlt (by omega)

theorem strlen_eq {m : Mem} {string : UInt32} {text : List UInt8} (h : CString m string text) :
    strlen m string = text.length := by
  have hlen := h.length
  exact strlenLoop_eq h (Nat.zero_le _) (by omega)

theorem cText_eq {m : Mem} {string : UInt32} {text : List UInt8} (h : CString m string text) :
    cText m string = text := by
  rw [cText, strlen_eq h]
  refine List.ext_getElem (by simp) fun i hi hi' => ?_
  rw [List.getElem_map, List.getElem_range, h.char i hi'.le, List.getD_eq_getElem _ _ hi']

end MoltarOS.Libc
