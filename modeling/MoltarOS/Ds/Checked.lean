import MoltarOS.Ds.Array
import MoltarOS.Lib.Loop
import MoltarOS.Mm.Alloc

/-!
# Dynamic arrays, word by word

`ds/array.c` again, removal included, with the fields of `array_t` as the words of 32 bits that they are and
the block of slots as long as `kmalloc` was asked for. An access to a slot at an index of `size` or more, or
outside the block, is a fault. The code goes on after it, in memory that may be anyone's; the model does not, and
the results about runs say that there is none, or are about blocks in which there is none.

## What is proved

* `arrayAdd_spec`, `removeElem_spec` — what the operations do to the list of the elements. `array_add` is that of
  `Ds/Array.lean` as long as nothing overflows.
* `array_refines_list` — any sequence of operations does to the array what it does to a list, disposes of
  what is dropped, and never faults.
-/

namespace MoltarOS.Ds.Checked

open MoltarOS.Lib MoltarOS.Lib.Word MoltarOS.Mm

/-! ### The code -/

/-- How a function ends when it does not return. -/
inductive Stop where
  /-- `KPANIC` in `kmalloc`. -/
  | panic
  /-- An access outside the slots. -/
  | fault
  deriving DecidableEq

/-- A block from `kmalloc`, as slots of `sizeof(void *)`, which is 4. -/
structure Block (α : Type*) where
  /-- The size asked for. -/
  bytes : UInt32
  /-- What the slots hold. -/
  slot : ℕ → α

/-- `array_t`. -/
structure ArrayT (α : Type*) where
  /-- How many slots there are. -/
  size : UInt32
  /-- How many are filled. -/
  used : UInt32
  /-- The slots. -/
  data : Block α

/-- `growth_factor`. -/
def growthFactor : UInt32 := 2

variable {α δ : Type}

/-- `kmalloc(sz)`. The memory is fresh and holds `fresh`; without any, `kmalloc` does not return. -/
def kmalloc (fresh : Option (ℕ → α)) (sz : UInt32) : Except Stop (Block α) :=
  if sz > PAGE_SIZE then .error .panic
  else match fresh with
    | some slot => .ok ⟨sz, slot⟩
    | none => .error .panic

/-- `data[idx]` may be accessed. -/
def ArrayT.InRange (a : ArrayT α) (idx : UInt32) : Prop := idx < a.size ∧ idx.toNat * 4 + 4 ≤ a.data.bytes.toNat

instance (a : ArrayT α) (idx : UInt32) : Decidable (a.InRange idx) := inferInstanceAs (Decidable (_ ∧ _))

/-- `array->data[idx]`. -/
def ArrayT.load (a : ArrayT α) (idx : UInt32) : Except Stop α :=
  if a.InRange idx then .ok (a.data.slot idx.toNat) else .error .fault

/-- `array->data[idx] = elem`. -/
def ArrayT.store (a : ArrayT α) (idx : UInt32) (elem : α) : Except Stop (ArrayT α) :=
  if a.InRange idx then .ok { a with data := { a.data with slot := Function.update a.data.slot idx.toNat elem } }
  else .error .fault

/-- `memcpy(dst, src, len)` of whole slots. -/
def memcpy (dst src : Block α) (len : UInt32) : Except Stop (Block α) :=
  if len ≤ dst.bytes ∧ len ≤ src.bytes then
    .ok { dst with slot := fun i => if i < len.toNat / 4 then src.slot i else dst.slot i }
  else .error .fault

/-- `array_create(initial_size)`. -/
def arrayCreate (fresh : Option (ℕ → α)) (initialSize : UInt32) : Except Stop (ArrayT α) := do
  let data ← kmalloc fresh (initialSize * 4)
  return ⟨initialSize, 0, data⟩

/-- Full? Allocate more. -/
def ArrayT.grow (fresh : Option (ℕ → α)) (a : ArrayT α) : Except Stop (ArrayT α) :=
  if a.used = a.size then do
    let size := a.size * growthFactor
    let tmp ← kmalloc fresh (size * 4)
    let tmp ← memcpy tmp a.data (a.used * 4)
    -- the old block goes back to `kfree`
    return { a with size := size, data := tmp }
  else return a

/-- `array_add(array, elem)`. -/
def arrayAdd (fresh : Option (ℕ → α)) (a : ArrayT α) (elem : α) : Except Stop (ArrayT α) := do
  let a ← a.grow fresh
  let b ← a.store a.used elem
  return { b with used := a.used + 1 }

/-- `array_get(array, idx)`, with the value of `NULL`. -/
def arrayGet (null : α) (a : ArrayT α) (idx : UInt32) : Except Stop α :=
  if idx > a.used then .ok null else a.load idx

/-- An element is disposed of, by `kfree` if the function is `NULL`. -/
structure Disposal (δ α : Type) where
  /-- The function. -/
  del : Option δ
  /-- The element. -/
  elem : α
  deriving DecidableEq

section Removal

variable [DecidableEq α]

/-- The test of `remove_elem`: `(cmp && cmp(elem, e)) || e == elem`. -/
def fits (cmp : Option (α → α → Bool)) (elem e : α) : Bool := cmp.any (· elem e) || e = elem

/-- The index of the element, from `idx` on. -/
def findLoop (a : ArrayT α) (elem : α) (cmp : Option (α → α → Bool)) : ℕ → UInt32 → Except Stop UInt32
  | 0, idx => .ok idx
  | n + 1, idx =>
    if idx < a.used then do
      let e ← a.load idx
      if fits cmp elem e then return idx else findLoop a elem cmp n (idx + 1)
    else .ok idx

/-- Shift the data out, from `idx` on. -/
def shiftLoop : ℕ → UInt32 → ArrayT α → Except Stop (ArrayT α)
  | 0, _, a => .ok a
  | n + 1, idx, a =>
    if idx < a.size - 1 then do
      let e ← a.load (idx + 1)
      let a ← a.store idx e
      shiftLoop n (idx + 1) a
    else .ok a

/-- The rest of `remove_elem` when the element is at `idx`. -/
def removeAt (a : ArrayT α) (del : Option δ) (idx : UInt32) : Except Stop (ArrayT α × List (Disposal δ α)) := do
  let e ← a.load idx
  let b ← shiftLoop a.size.toNat idx a
  return ({ b with used := b.used - 1 }, [⟨del, e⟩])

/-- `remove_elem(array, elem, del, cmp)`: the array, and the calls of the disposal function. -/
def removeElem (a : ArrayT α) (elem : α) (del : Option δ) (cmp : Option (α → α → Bool)) :
    Except Stop (ArrayT α × List (Disposal δ α)) := do
  let idx ← findLoop a elem cmp a.used.toNat 0
  if idx = a.used then return (a, []) else removeAt a del idx

/-- `array_remove(array, elem)`. -/
def arrayRemove (a : ArrayT α) (elem : α) : Except Stop (ArrayT α × List (Disposal δ α)) := removeElem a elem none none

/-- `array_remove_cmp(array, elem, cmp)`. -/
def arrayRemoveCmp (a : ArrayT α) (elem : α) (cmp : α → α → Bool) : Except Stop (ArrayT α × List (Disposal δ α)) :=
  removeElem a elem none (some cmp)

/-- `array_delete(array, elem, del)`. -/
def arrayDelete (a : ArrayT α) (elem : α) (del : δ) : Except Stop (ArrayT α × List (Disposal δ α)) :=
  removeElem a elem (some del) none

/-- `array_delete_cmp(array, elem, del, cmp)`. -/
def arrayDeleteCmp (a : ArrayT α) (elem : α) (del : δ) (cmp : α → α → Bool) :
    Except Stop (ArrayT α × List (Disposal δ α)) :=
  removeElem a elem (some del) (some cmp)

end Removal

/-! ### The invariant -/

/-- The array of `Ds/Array.lean`. -/
def ArrayT.plain (a : ArrayT α) : Ds.ArrayT α := ⟨a.size.toNat, a.used.toNat, a.data.slot⟩

/-- The elements. -/
def ArrayT.toList (a : ArrayT α) : List α := a.plain.toList

/-- **The invariant of an array.** -/
structure ArrayT.Inv (a : ArrayT α) : Prop where
  /-- There is a slot. -/
  pos : 0 < a.size.toNat
  /-- The block is as long as it should be. -/
  bytes : a.data.bytes.toNat = a.size.toNat * 4
  /-- It is no longer than `kmalloc` allows. -/
  bytes_le : a.data.bytes.toNat ≤ 2 ^ 22
  /-- The filled slots are slots. -/
  used_le : a.used.toNat ≤ a.size.toNat

/-- Of the invariant, what concerns the filled slots alone. -/
structure ArrayT.Filled (a : ArrayT α) : Prop where
  /-- They are slots. -/
  used_le : a.used.toNat ≤ a.size.toNat
  /-- They are in the block. -/
  bytes : a.used.toNat * 4 ≤ a.data.bytes.toNat

theorem ArrayT.toList_eq (a : ArrayT α) : a.toList = (List.range a.used.toNat).map a.data.slot := rfl

section Accesses

variable {a b : ArrayT α} {fresh : Option (ℕ → α)} {elem : α}

/-- Slots below `size` may be accessed. -/
theorem ArrayT.Inv.inRange (h : a.Inv) {idx : UInt32} (hidx : idx.toNat < a.size.toNat) : a.InRange idx := by
  have hbytes := h.bytes
  exact ⟨UInt32.lt_iff_toNat_lt.mpr hidx, by omega⟩

theorem ArrayT.Inv.filled (h : a.Inv) : a.Filled := by
  have hused := h.used_le
  have hbytes := h.bytes
  exact ⟨hused, by omega⟩

theorem ArrayT.Filled.load_eq (h : a.Filled) {idx : UInt32} (hidx : idx.toNat < a.used.toNat) :
    a.load idx = .ok (a.data.slot idx.toNat) := by
  have hused := h.used_le
  have hbytes := h.bytes
  exact if_pos ⟨UInt32.lt_iff_toNat_lt.mpr (by omega), by omega⟩

theorem ArrayT.Inv.load_eq (h : a.Inv) {idx : UInt32} (hidx : idx.toNat < a.size.toNat) :
    a.load idx = .ok (a.data.slot idx.toNat) := if_pos (h.inRange hidx)

theorem ArrayT.Inv.store_eq (h : a.Inv) {idx : UInt32} (hidx : idx.toNat < a.size.toNat) :
    a.store idx elem = .ok ⟨a.size, a.used, a.data.bytes, Function.update a.data.slot idx.toNat elem⟩ :=
  if_pos (h.inRange hidx)

theorem kmalloc_eq_ok {sz : UInt32} {d : Block α} (h : kmalloc fresh sz = .ok d) :
    sz.toNat ≤ 2 ^ 22 ∧ ∃ slot, fresh = some slot ∧ d = ⟨sz, slot⟩ := by
  unfold kmalloc at h
  split_ifs at h with hmax
  have hsz := UInt32.le_iff_toNat_le.mp (UInt32.not_lt.mp hmax)
  rw [toNat_PAGE_SIZE] at hsz
  cases fresh with
  | none => cases h
  | some slot => exact ⟨hsz, slot, rfl, (Except.ok.inj h).symm⟩

theorem kmalloc_ne_fault (sz : UInt32) : kmalloc fresh sz ≠ .error .fault := by
  unfold kmalloc
  split_ifs
  · exact fun h => by cases h
  · cases fresh <;> exact fun h => by cases h

/-- The block of `array_create` is as long as it should be, if the size in bytes is a word. -/
theorem arrayCreate_inv {n : UInt32} (hpos : 1 ≤ n.toNat) (hbytes : n.toNat * 4 < 2 ^ 32)
    (h : arrayCreate fresh n = .ok a) :
    a.Inv ∧ a.toList = [] := by
  rw [arrayCreate] at h
  cases hk : kmalloc fresh (n * 4) with
  | error e =>
    rw [hk] at h
    cases h
  | ok d =>
    rw [hk] at h
    obtain rfl := Except.ok.inj h
    obtain ⟨hmax, slot, -, rfl⟩ := kmalloc_eq_ok hk
    exact ⟨⟨hpos, toNat_mul_of_lt hbytes, hmax, Nat.zero_le _⟩, rfl⟩

end Accesses

/-! ### Adding -/

section Adding

variable {a b : ArrayT α} {fresh : Option (ℕ → α)} {elem : α}

/-- What the new block holds. -/
def ArrayT.newBlock (a : ArrayT α) (fresh : Option (ℕ → α)) (_ : ℕ) : ℕ → α := fresh.getD a.data.slot

/-- Growing is that of `Ds/Array.lean`; there is room after it, and it ends early in `kmalloc` only. -/
theorem grow_spec (h : a.Inv) :
    a.grow fresh = .error .panic ∨
      ∃ b, a.grow fresh = .ok b ∧ b.Inv ∧ b.used.toNat < b.size.toNat ∧ b.plain = a.plain.grow (a.newBlock fresh) := by
  have hused := h.used_le
  have hpos := h.pos
  have hbytes := h.bytes
  have hle := h.bytes_le
  unfold ArrayT.grow Ds.ArrayT.grow
  by_cases hfull : a.used = a.size
  swap
  · have hne : a.plain.used ≠ a.plain.size := fun he => hfull (UInt32.toNat_inj.mp he)
    rw [if_neg hfull, if_neg hne]
    have hne' : a.used.toNat ≠ a.size.toNat := hne
    exact Or.inr ⟨a, rfl, h, by omega, rfl⟩
  have hfull' : a.plain.used = a.plain.size := congrArg UInt32.toNat hfull
  rw [if_pos hfull, if_pos hfull']
  -- nothing overflows
  have htwo : growthFactor.toNat = 2 := rfl
  have hfour : (4 : UInt32).toNat = 4 := rfl
  have hsize : (a.size * growthFactor).toNat = a.size.toNat * 2 := toNat_mul_of_lt (by rw [htwo]; omega)
  have hsize4 : (a.size * growthFactor * 4).toNat = a.size.toNat * 2 * 4 := by
    rw [toNat_mul_of_lt (by rw [hsize, hfour]; omega), hsize, hfour]
  have hused4 : (a.used * 4).toNat = a.used.toNat * 4 := toNat_mul_of_lt (by rw [hfour]; omega)
  cases hk : kmalloc fresh (a.size * growthFactor * 4) with
  | error e =>
    cases e with
    | panic => exact Or.inl (by simp only [hk]; rfl)
    | fault => exact absurd hk (kmalloc_ne_fault _)
  | ok d =>
    obtain ⟨hmax, slot, rfl, rfl⟩ := kmalloc_eq_ok hk
    let block : Block α := ⟨a.size * growthFactor * 4, fun i => if i < a.used.toNat then a.data.slot i else slot i⟩
    have hcopy : memcpy ⟨a.size * growthFactor * 4, slot⟩ a.data (a.used * 4) = .ok block := by
      rw [memcpy, if_pos, hused4, Nat.mul_div_cancel _ (by decide)]
      rw [UInt32.le_iff_toNat_le, UInt32.le_iff_toNat_le, hused4, hsize4]
      omega
    refine Or.inr ⟨⟨a.size * growthFactor, a.used, block⟩, ?_, ⟨?_, ?_, hmax, ?_⟩, ?_, ?_⟩
    · simp only [hk, ok_bind, hcopy]
      rfl
    · rw [hsize]
      omega
    · exact hsize4.trans (congrArg (· * 4) hsize.symm)
    · change a.used.toNat ≤ _
      rw [hsize]
      omega
    · change a.used.toNat < _
      rw [hsize]
      omega
    · rw [ArrayT.plain, hsize]
      rfl

/-- **`array_add`** is that of `Ds/Array.lean`, or the machine halts in `kmalloc`. -/
theorem arrayAdd_spec (h : a.Inv) :
    arrayAdd fresh a elem = .error .panic ∨
      ∃ b, arrayAdd fresh a elem = .ok b ∧ b.Inv ∧ b.plain = Ds.arrayAdd (a.newBlock fresh) a.plain elem := by
  rcases @grow_spec α a fresh h with hg | ⟨b, hg, hb, hroom, hplain⟩
  · left
    rw [arrayAdd, hg]
    rfl
  · right
    have hlt := b.size.toNat_lt
    have hused := toNat_add_one_of_lt (UInt32.lt_iff_toNat_lt.mpr hroom)
    refine ⟨⟨b.size, b.used + 1, b.data.bytes, Function.update b.data.slot b.used.toNat elem⟩, ?_,
      ⟨hb.pos, hb.bytes, hb.bytes_le, ?_⟩, ?_⟩
    · rw [arrayAdd, hg, ok_bind, hb.store_eq hroom, ok_bind]
      rfl
    · exact hused.trans_le hroom
    · rw [Ds.arrayAdd, ← hplain, ArrayT.plain, hused]
      rfl

theorem toList_arrayAdd (h : a.Inv) (hb : arrayAdd fresh a elem = .ok b) : b.Inv ∧ b.toList = a.toList ++ [elem] := by
  rcases @arrayAdd_spec α a fresh elem h with herr | ⟨c, hc, hinv, hplain⟩
  · rw [herr] at hb
    cases hb
  · obtain rfl : c = b := Except.ok.inj (hc.symm.trans hb)
    refine ⟨hinv, ?_⟩
    rw [ArrayT.toList, hplain, Ds.toList_arrayAdd]
    rfl

end Adding

/-! ### Removing -/

section Removing

variable [DecidableEq α] {a b : ArrayT α} {elem : α} {del : Option δ} {cmp : Option (α → α → Bool)}

/-- The search returns the first index from `i` on at which the test succeeds, or `used`. -/
theorem findLoop_spec (h : a.Filled) {i n : ℕ} (hi : i ≤ a.used.toNat) (hn : a.used.toNat ≤ i + n) :
    ∃ k, findLoop a elem cmp n (UInt32.ofNat i) = .ok (UInt32.ofNat k) ∧ i ≤ k ∧ k ≤ a.used.toNat ∧
      (∀ j, i ≤ j → j < k → fits cmp elem (a.data.slot j) = false) ∧
      (k < a.used.toNat → fits cmp elem (a.data.slot k) = true) := by
  have hlt := a.used.toNat_lt
  induction n generalizing i with
  | zero => exact ⟨i, rfl, le_rfl, hi, fun j h1 h2 => by omega, fun hlt => by omega⟩
  | succ n ih =>
    have hidx : (UInt32.ofNat i).toNat = i := toNat_ofNat_of_lt (by omega)
    unfold findLoop
    by_cases hend : i = a.used.toNat
    · rw [if_neg (by rw [UInt32.lt_iff_toNat_lt]; omega)]
      exact ⟨i, rfl, le_rfl, hi, fun j h1 h2 => by omega, fun hlt => by omega⟩
    rw [if_pos (by rw [UInt32.lt_iff_toNat_lt]; omega), h.load_eq (by omega), ok_bind, hidx]
    cases hfits : fits cmp elem (a.data.slot i) with
    | true => exact ⟨i, rfl, le_rfl, hi, fun j h1 h2 => by omega, fun _ => hfits⟩
    | false =>
      obtain ⟨k, hk, hik, hku, hbefore, hat⟩ := ih (i := i + 1) (by omega) (by omega)
      rw [ofNat_add_one] at hk
      refine ⟨k, hk, by omega, hku, fun j h1 h2 => ?_, hat⟩
      by_cases hji : j = i
      · rw [hji, hfits]
      · exact hbefore j (by omega) h2

/-- The slots after `i` have moved down by one. -/
def shifted (slot : ℕ → α) (i size : ℕ) : ℕ → α := fun j => if i ≤ j ∧ j < size - 1 then slot (j + 1) else slot j

omit [DecidableEq α] in
theorem shifted_of_le (slot : ℕ → α) {i size : ℕ} (h : size - 1 ≤ i) : shifted slot i size = slot :=
  funext fun _ => if_neg (by omega)

omit [DecidableEq α] in
theorem shifted_succ (slot : ℕ → α) {i size : ℕ} (h : i < size - 1) :
    shifted (Function.update slot i (slot (i + 1))) (i + 1) size = shifted slot i size := by
  funext j
  unfold shifted
  by_cases hin : i + 1 ≤ j ∧ j < size - 1
  · rw [if_pos hin, if_pos (by omega), Function.update_of_ne (by omega)]
  · rw [if_neg hin]
    by_cases hji : j = i
    · rw [if_pos (by omega), hji, Function.update_self]
    · rw [if_neg (by omega), Function.update_of_ne hji]

omit [DecidableEq α] in
/-- The loop moves the slots after `i` down, those not filled included. -/
theorem shiftLoop_spec (h : a.Inv) {i n : ℕ} (hi : i ≤ a.size.toNat) (hn : a.size.toNat ≤ i + n) :
    shiftLoop n (UInt32.ofNat i) a = .ok ⟨a.size, a.used, a.data.bytes, shifted a.data.slot i a.size.toNat⟩ := by
  induction n generalizing a i with
  | zero =>
    rw [shifted_of_le _ (by omega)]
    rfl
  | succ n ih =>
    have hlt := a.size.toNat_lt
    have hlast := toNat_sub_one_of_pos h.pos
    have hidx : (UInt32.ofNat i).toNat = i := toNat_ofNat_of_lt (by omega)
    unfold shiftLoop
    by_cases hend : i < a.size.toNat - 1
    · have hnext : (UInt32.ofNat (i + 1)).toNat = i + 1 := toNat_ofNat_of_lt (by omega)
      rw [if_pos (by rw [UInt32.lt_iff_toNat_lt]; omega), ← ofNat_add_one, h.load_eq (by omega), ok_bind,
        h.store_eq (by omega), ok_bind, hnext, hidx, ← shifted_succ _ hend]
      let b : ArrayT α := ⟨a.size, a.used, a.data.bytes, Function.update a.data.slot i (a.data.slot (i + 1))⟩
      have hb : b.Inv := ⟨h.pos, h.bytes, h.bytes_le, h.used_le⟩
      have hleft : b.size.toNat ≤ i + 1 + n := by
        change a.size.toNat ≤ _
        omega
      exact ih hb (show i + 1 ≤ a.size.toNat by omega) hleft
    · rw [if_neg (by rw [UInt32.lt_iff_toNat_lt]; omega), shifted_of_le _ (by omega)]

omit [DecidableEq α] in
/-- The list without the element at `k`. -/
theorem eraseIdx_range_map (slot : ℕ → α) {k used size : ℕ} (hk : k < used) (hsize : used ≤ size) :
    ((List.range used).map slot).eraseIdx k = (List.range (used - 1)).map (shifted slot k size) := by
  apply List.ext_getElem
  · simp [List.length_eraseIdx, hk]
  · intro j h1 h2
    rw [List.length_map, List.length_range] at h2
    rw [List.getElem_map, List.getElem_range, List.getElem_eraseIdx, shifted]
    by_cases hj : j < k
    · rw [dif_pos hj, if_neg (by omega), List.getElem_map, List.getElem_range]
    · rw [dif_neg hj, if_pos (by omega), List.getElem_map, List.getElem_range]

/-- What removal does to a list: it drops the first element that fits, and disposes of it. -/
def dropFirst (elem : α) (del : Option δ) (cmp : Option (α → α → Bool)) (l : List α) : List α × List (Disposal δ α) :=
  (l.eraseP (fits cmp elem), (l.find? (fits cmp elem)).toList.map (⟨del, ·⟩))

theorem dropFirst_of_forall {l : List α} (h : ∀ e ∈ l, fits cmp elem e = false) :
    dropFirst elem del cmp l = (l, []) := by
  rw [dropFirst, List.find?_eq_none.mpr fun e he => by simp [h e he],
    List.eraseP_of_forall_not fun e he => by simp [h e he]]
  rfl

/-- The element at `k` is the first that fits. -/
theorem dropFirst_of_found (slot : ℕ → α) {k used size : ℕ} (hk : k < used) (hsize : used ≤ size)
    (hbefore : ∀ j < k, fits cmp elem (slot j) = false) (hat : fits cmp elem (slot k) = true) :
    dropFirst elem del cmp ((List.range used).map slot) =
      ((List.range (used - 1)).map (shifted slot k size), [⟨del, slot k⟩]) := by
  have hlen : k < ((List.range used).map slot).length := by
    rw [List.length_map, List.length_range]
    exact hk
  have hfind : ((List.range used).map slot).find? (fits cmp elem) = some (slot k) := by
    rw [List.find?_eq_some_iff_getElem]
    exact ⟨hat, k, hlen, by simp, fun j hj => by simp [hbefore j hj]⟩
  have hfirst : ((List.range used).map slot).findIdx? (fits cmp elem) = some k := by
    rw [List.findIdx?_eq_some_iff_getElem]
    exact ⟨hlen, by simpa using hat, fun j hj => by simp [hbefore j hj]⟩
  rw [dropFirst, hfind, List.eraseP_eq_eraseIdx, hfirst]
  exact congrArg (·, _) (eraseIdx_range_map slot hk hsize)

/-- **`remove_elem`**, up to the loop that shifts the data out: the array is as it was, or the first element that
fits is found. -/
theorem removeElem_cases (h : a.Filled) :
    removeElem a elem del cmp = .ok (a, []) ∧ dropFirst elem del cmp a.toList = (a.toList, []) ∨
      ∃ k, k < a.used.toNat ∧
        dropFirst elem del cmp a.toList =
          ((List.range (a.used - 1).toNat).map (shifted a.data.slot k a.size.toNat), [⟨del, a.data.slot k⟩]) ∧
        removeElem a elem del cmp =
          (shiftLoop a.size.toNat (UInt32.ofNat k) a).map fun b =>
            ({ b with used := b.used - 1 }, [⟨del, a.data.slot k⟩]) := by
  have hused := h.used_le
  have hlt := a.used.toNat_lt
  obtain ⟨k, hk, -, hku, hbefore, hat⟩ := @findLoop_spec α _ a elem cmp h 0 a.used.toNat (Nat.zero_le _) (by omega)
  have hk0 : findLoop a elem cmp a.used.toNat 0 = .ok (UInt32.ofNat k) := hk
  have hidx : (UInt32.ofNat k).toNat = k := toNat_ofNat_of_lt (by omega)
  rw [removeElem, hk0, ok_bind, ArrayT.toList_eq]
  by_cases hend : k = a.used.toNat
  · left
    refine ⟨if_pos (UInt32.toNat_inj.mp (hidx.trans hend)), dropFirst_of_forall fun e he => ?_⟩
    obtain ⟨j, hj, rfl⟩ := List.mem_map.mp he
    exact hbefore j (Nat.zero_le j) (by rw [hend]; exact List.mem_range.mp hj)
  · right
    have hku' : k < a.used.toNat := by omega
    have hless : (a.used - 1).toNat = a.used.toNat - 1 := toNat_sub_one_of_pos (by omega)
    refine ⟨k, hku', ?_, ?_⟩
    · rw [hless]
      exact dropFirst_of_found a.data.slot hku' hused (fun j hj => hbefore j (Nat.zero_le j) hj) (hat hku')
    · rw [if_neg fun he => hend (hidx.symm.trans (congrArg UInt32.toNat he)), removeAt, h.load_eq (by omega),
        ok_bind, hidx]
      cases shiftLoop a.size.toNat (UInt32.ofNat k) a <;> rfl

/-- **`remove_elem`** drops the first element that fits. -/
theorem removeElem_spec (h : a.Inv) :
    ∃ b, removeElem a elem del cmp = .ok (b, (dropFirst elem del cmp a.toList).2) ∧ b.Inv ∧
      b.toList = (dropFirst elem del cmp a.toList).1 := by
  have hused := h.used_le
  have hlt := a.used.toNat_lt
  rcases @removeElem_cases α δ _ a elem del cmp h.filled with ⟨hsame, hlist⟩ | ⟨k, hk, hlist, hrem⟩
  · rw [hsame, hlist]
    exact ⟨a, rfl, h, rfl⟩
  · rw [shiftLoop_spec h (by omega) (by omega)] at hrem
    rw [hrem, hlist]
    refine ⟨⟨a.size, a.used - 1, a.data.bytes, shifted a.data.slot k a.size.toNat⟩, rfl,
      ⟨h.pos, h.bytes, h.bytes_le, ?_⟩, rfl⟩
    have hless : (a.used - 1).toNat = a.used.toNat - 1 := toNat_sub_one_of_pos (by omega)
    change (a.used - 1).toNat ≤ a.size.toNat
    omega

end Removing

/-! ### Runs -/

/-- An operation on an array, with what `kmalloc` hands out if the array has to grow. -/
inductive ArrayOp (δ α : Type) where
  /-- `array_add`. -/
  | add (fresh : Option (ℕ → α)) (elem : α)
  /-- `array_remove`. -/
  | remove (elem : α)
  /-- `array_remove_cmp`. -/
  | removeCmp (elem : α) (cmp : α → α → Bool)
  /-- `array_delete`. -/
  | delete (elem : α) (del : δ)
  /-- `array_delete_cmp`. -/
  | deleteCmp (elem : α) (del : δ) (cmp : α → α → Bool)

section Runs

variable [DecidableEq α]

/-- The call of the function, and the calls that it makes of the disposal function. -/
def ArrayOp.call (a : ArrayT α) : ArrayOp δ α → Except Stop (ArrayT α × List (Disposal δ α))
  | .add fresh elem => (arrayAdd fresh a elem).map (·, [])
  | .remove elem => arrayRemove a elem
  | .removeCmp elem cmp => arrayRemoveCmp a elem cmp
  | .delete elem del => arrayDelete a elem del
  | .deleteCmp elem del cmp => arrayDeleteCmp a elem del cmp

/-- What the operation does to a list. -/
def ArrayOp.onList (l : List α) : ArrayOp δ α → List α × List (Disposal δ α)
  | .add _ elem => (l ++ [elem], [])
  | .remove elem => dropFirst elem none none l
  | .removeCmp elem cmp => dropFirst elem none (some cmp) l
  | .delete elem del => dropFirst elem (some del) none l
  | .deleteCmp elem del cmp => dropFirst elem (some del) (some cmp) l

/-- The array as a machine, with all that was disposed of. A panic ends the run, and so does a fault. -/
def arrayMachine : Machine (ArrayT α × List (Disposal δ α)) (ArrayOp δ α) where
  step s op :=
    match op.call s.1 with
    | .ok (a, out) => some (a, s.2 ++ out)
    | .error _ => none

/-- The list, with all that was disposed of. -/
def listMachine : Machine (List α × List (Disposal δ α)) (ArrayOp δ α) where
  step s op := some ((op.onList s.1).1, s.2 ++ (op.onList s.1).2)

variable {a : ArrayT α} {op : ArrayOp δ α}

/-- What one operation does: what it does to the list, or `kmalloc` halts the machine. -/
theorem call_spec (h : a.Inv) (op : ArrayOp δ α) :
    (∃ fresh elem, op = .add fresh elem ∧ op.call a = .error .panic) ∨
      ∃ b, op.call a = .ok (b, (op.onList a.toList).2) ∧ b.Inv ∧ b.toList = (op.onList a.toList).1 := by
  cases op with
  | add fresh elem =>
    rcases @arrayAdd_spec α a fresh elem h with hp | ⟨b, hb, -, -⟩
    · left
      exact ⟨fresh, elem, rfl, by rw [ArrayOp.call, hp]; rfl⟩
    · right
      exact ⟨b, by rw [ArrayOp.call, hb]; rfl, toList_arrayAdd h hb⟩
  | remove elem => exact Or.inr (removeElem_spec h)
  | removeCmp elem cmp => exact Or.inr (removeElem_spec h)
  | delete elem del => exact Or.inr (removeElem_spec h)
  | deleteCmp elem del cmp => exact Or.inr (removeElem_spec h)

/-- A step of the array is a step of the list. -/
theorem array_step {s t : ArrayT α × List (Disposal δ α)} (h : s.1.Inv) (hs : arrayMachine.step s op = some t) :
    t.1.Inv ∧ listMachine.step (s.1.toList, s.2) op = some (t.1.toList, t.2) := by
  simp only [arrayMachine] at hs
  rcases call_spec h op with ⟨fresh, elem, -, hp⟩ | ⟨b, hb, hinv, hlist⟩
  · rw [hp] at hs
    cases hs
  · rw [hb] at hs
    obtain rfl := Option.some.inj hs
    exact ⟨hinv, by rw [hlist]; rfl⟩

/-- **Arrays are lists.** From `array_create` on, whose block has `initial_size` slots, at least one, any sequence
of operations leaves the elements that it leaves in a list, and disposes, once, of each that it drops there. Then
`used` is at most `size`, and no operation accesses a slot that is not there: it does its work, or an `array_add` halts
the machine in `kmalloc`. -/
theorem array_refines_list {fresh : Option (ℕ → α)} {initialSize : UInt32} (hpos : 1 ≤ initialSize.toNat)
    (hbytes : initialSize.toNat * 4 < 2 ^ 32) (hc : arrayCreate fresh initialSize = .ok a) {ops : List (ArrayOp δ α)}
    {s : ArrayT α × List (Disposal δ α)} (hr : arrayMachine.run (a, []) ops = some s) :
    listMachine.run ([], []) ops = some (s.1.toList, s.2) ∧ s.1.used.toNat ≤ s.1.size.toNat ∧
      ∀ op : ArrayOp δ α, (∃ r, op.call s.1 = .ok r) ∨ ∃ fresh elem, op = .add fresh elem ∧
      op.call s.1 = .error .panic := by
  obtain ⟨hinv, hnil⟩ := arrayCreate_inv hpos hbytes hc
  have hs : s.1.Inv := arrayMachine.invariant (I := fun s => s.1.Inv)
    (fun _ _ _ h hstep => (array_step h hstep).1) hinv hr
  refine ⟨?_, hs.used_le, fun op => ?_⟩
  · have hrun := arrayMachine.refines (N := listMachine) (I := fun s => s.1.Inv)
      (f := fun s => (s.1.toList, s.2)) (g := id)
      (fun _ _ _ h hstep => (array_step h hstep).1) (fun _ _ _ h hstep => (array_step h hstep).2) hinv hr
    rwa [List.map_id, hnil] at hrun
  · rcases call_spec hs op with hp | ⟨b, hb, -, -⟩
    · exact Or.inr hp
    · exact Or.inl ⟨_, hb⟩

/-- Three additions, the last two to a full array, and two removals. -/
def sampleOps : List (ArrayOp Unit UInt32) :=
  [.add none 5, .add (some fun _ => 0) 7, .add (some fun _ => 0) 5, .remove 5, .deleteCmp 4 () fun x y => x < y]

theorem array_refines_list_sample :
    ∃ s, arrayMachine.run (⟨1, 0, 4, fun _ => 9⟩, []) sampleOps = some s ∧
      listMachine.run ([], []) sampleOps = some (s.1.toList, s.2) := by
  have hrun : (arrayMachine.run (⟨1, 0, 4, fun _ => 9⟩, []) sampleOps).isSome := by
    decide +kernel
  obtain ⟨s, hs⟩ := Option.isSome_iff_exists.mp hrun
  have hc : arrayCreate (some fun _ => 9) 1 = .ok (⟨1, 0, 4, fun _ => 9⟩ : ArrayT UInt32) := rfl
  exact ⟨s, hs, (array_refines_list (by decide) (by decide) hc hs).1⟩

end Runs

end MoltarOS.Ds.Checked
