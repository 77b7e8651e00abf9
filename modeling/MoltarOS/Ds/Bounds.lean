import MoltarOS.Ds.Checked

/-!
# The limits of dynamic arrays

`array_create` takes any initial size, and `array_get` any index. Neither an initial size of `0`, which doubling leaves
at `0`, nor one whose size in bytes is no word is refused; and `array_get` refuses an index above `used` only,
so that it reads the slot at `used`, whatever it holds.

## What is proved

* `sound_iff` — every array that `array_add` makes of a new one has its slots in its block, and room for the next
  element, exactly if the initial size is positive and is a word in bytes.
* `filled_of_run` — whatever the initial size, an operation that returns does to the array what it does to a list.
* `arrayGet_iff` — with such an initial size, `array_get` returns the element of the list, and `NULL` where there is
  none, except at `used`: there the slot has to be there and to hold `NULL`.
-/

namespace MoltarOS.Ds.Checked

open MoltarOS.Lib MoltarOS.Lib.Word MoltarOS.Mm

variable {α δ : Type} {a b : ArrayT α} {fresh : Option (ℕ → α)} {n : UInt32} {elem : α}

/-! ### New arrays -/

theorem arrayCreate_eq_ok (h : arrayCreate fresh n = .ok a) : ∃ slot, fresh = some slot ∧ a = ⟨n, 0, n * 4, slot⟩ := by
  obtain ⟨d, hd, ha⟩ := bind_eq_ok h
  obtain ⟨-, slot, hslot, rfl⟩ := kmalloc_eq_ok hd
  exact ⟨slot, hslot, (Except.ok.inj ha).symm⟩

theorem arrayCreate_filled (h : arrayCreate fresh n = .ok a) : a.Filled ∧ a.toList = [] := by
  obtain ⟨slot, -, rfl⟩ := arrayCreate_eq_ok h
  exact ⟨⟨Nat.zero_le _, Nat.zero_le _⟩, rfl⟩

/-! ### Adding to a new array -/

/-- Many `array_add`, with what `kmalloc` hands out for each. -/
def addAll : ArrayT α → List (Option (ℕ → α) × α) → Except Stop (ArrayT α)
  | a, [] => .ok a
  | a, (fresh, elem) :: adds => do
    let a ← arrayAdd fresh a elem
    addAll a adds

/-- The slots are in the block, and the next `array_add` writes to a slot. -/
structure ArrayT.Sound (a : ArrayT α) : Prop where
  /-- The block is long enough. -/
  bytes : a.size.toNat * 4 ≤ a.data.bytes.toNat
  /-- The filled slots are slots. -/
  used_le : a.used.toNat ≤ a.size.toNat
  /-- `data[used++] = elem`. -/
  add : ∀ fresh elem, arrayAdd fresh a elem ≠ .error .fault

theorem ArrayT.Inv.sound (h : a.Inv) : a.Sound := by
  refine ⟨h.bytes.ge, h.used_le, fun fresh elem hfault => ?_⟩
  rcases @arrayAdd_spec α a fresh elem h with hp | ⟨b, hb, -, -⟩
  · cases hp.symm.trans hfault
  · cases hb.symm.trans hfault

theorem addAll_inv {adds : List (Option (ℕ → α) × α)} (h : a.Inv) (hb : addAll a adds = .ok b) : b.Inv := by
  induction adds generalizing a with
  | nil => exact Except.ok.inj hb ▸ h
  | cons add adds ih =>
    obtain ⟨c, hc, hb⟩ := bind_eq_ok hb
    exact ih (toList_arrayAdd h hc).1 hb

/-- Twice nothing is nothing: there is no slot for the first element. -/
theorem arrayAdd_of_zero (slot slot' : ℕ → α) (elem : α) :
    arrayAdd (some slot) ⟨0, 0, 0 * 4, slot'⟩ elem = .error .fault := rfl

/-- **The slots are in the block, exactly if the initial size is positive and is a word in bytes**. -/
theorem sound_iff (hc : arrayCreate fresh n = .ok a) :
    (∀ adds b, addAll a adds = .ok b → b.Sound) ↔ 1 ≤ n.toNat ∧ n.toNat * 4 < 2 ^ 32 := by
  constructor
  · intro h
    have hsound := h [] a rfl
    obtain ⟨slot, -, rfl⟩ := arrayCreate_eq_ok hc
    refine ⟨?_, ?_⟩
    · by_contra hzero
      obtain rfl : n = 0 := UInt32.toNat_inj.mp (by simpa using hzero)
      exact hsound.add (some slot) (slot 0) (arrayAdd_of_zero slot slot (slot 0))
    · exact Nat.lt_of_le_of_lt hsound.bytes (n * 4).toNat_lt
  · rintro ⟨hpos, hbytes⟩ adds b hb
    exact (addAll_inv (arrayCreate_inv hpos hbytes hc).1 hb).sound

/-- Two slots, and five elements. -/
theorem sound_sample : ∃ a : ArrayT UInt32, arrayCreate (some fun _ => 9) 2 = .ok a ∧
    ((∀ adds b, addAll a adds = .ok b → b.Sound) ↔ 1 ≤ (2 : UInt32).toNat ∧ (2 : UInt32).toNat * 4 < 2 ^ 32) :=
  ⟨⟨2, 0, 2 * 4, fun _ => 9⟩, rfl, @sound_iff UInt32 _ (some fun _ => 9) 2 rfl⟩

/-- Without a slot, the first element is written past the block. -/
theorem not_sound : ∃ a : ArrayT UInt32, arrayCreate (some fun _ => 9) 0 = .ok a ∧
    ¬ ∀ adds b, addAll a adds = .ok b → b.Sound :=
  ⟨⟨0, 0, 0 * 4, fun _ => 9⟩, rfl, fun h => (h [] _ rfl).add (some fun _ => 9) 5 (arrayAdd_of_zero _ _ 5)⟩

/-! ### Any initial size -/

theorem store_eq_ok {idx : UInt32} (h : a.store idx elem = .ok b) :
    a.InRange idx ∧ b = ⟨a.size, a.used, a.data.bytes, Function.update a.data.slot idx.toNat elem⟩ := by
  unfold ArrayT.store at h
  split_ifs at h with hin
  exact ⟨hin, (Except.ok.inj h).symm⟩

theorem load_eq_ok {idx : UInt32} {e : α} (h : a.load idx = .ok e) : a.InRange idx ∧ e = a.data.slot idx.toNat := by
  unfold ArrayT.load at h
  split_ifs at h with hin
  exact ⟨hin, (Except.ok.inj h).symm⟩

/-- Growing keeps the filled slots. -/
theorem grow_filled (h : a.Filled) (hb : a.grow fresh = .ok b) :
    b.used = a.used ∧ ∀ i < a.used.toNat, b.data.slot i = a.data.slot i := by
  unfold ArrayT.grow at hb
  split_ifs at hb with hfull
  · obtain ⟨d, hd, hb⟩ := bind_eq_ok hb
    obtain ⟨e, he, hb⟩ := bind_eq_ok hb
    obtain rfl := Except.ok.inj hb
    unfold memcpy at he
    split_ifs at he with hlen
    obtain rfl := Except.ok.inj he
    refine ⟨rfl, fun i hi => if_pos ?_⟩
    have hfour : (4 : UInt32).toNat = 4 := rfl
    have hbytes := h.bytes
    have hlt := a.data.bytes.toNat_lt
    rw [toNat_mul_of_lt (by rw [hfour]; omega), hfour]
    omega
  · obtain rfl := Except.ok.inj hb
    exact ⟨rfl, fun i _ => rfl⟩

/-- An `array_add` that returns has added the element. -/
theorem arrayAdd_filled (h : a.Filled) (hb : arrayAdd fresh a elem = .ok b) :
    b.Filled ∧ b.toList = a.toList ++ [elem] := by
  obtain ⟨c, hc, hb⟩ := bind_eq_ok hb
  obtain ⟨d, hd, hb⟩ := bind_eq_ok hb
  obtain rfl := Except.ok.inj hb
  obtain ⟨hused, hslot⟩ := grow_filled h hc
  obtain ⟨hin, rfl⟩ := store_eq_ok hd
  have hsize := UInt32.lt_iff_toNat_lt.mp hin.1
  have hbytes := hin.2
  have hnext := toNat_add_one_of_lt hin.1
  refine ⟨⟨hnext.trans_le hsize, ?_⟩, ?_⟩
  · change (c.used + 1).toNat * 4 ≤ c.data.bytes.toNat
    omega
  · rw [ArrayT.toList_eq, ArrayT.toList_eq]
    change (List.range (c.used + 1).toNat).map (Function.update c.data.slot c.used.toNat elem) = _
    rw [hnext, List.range_succ, List.map_append, List.map_singleton, Function.update_self, hused]
    refine congrArg (· ++ [elem]) (List.map_congr_left fun i hi => ?_)
    rw [Function.update_of_ne (List.mem_range.mp hi).ne, hslot i (List.mem_range.mp hi)]

/-- The loop that returns has moved the slots after `i` down. -/
theorem shiftLoop_ok {i m : ℕ} (hpos : 0 < a.size.toNat) (hi : i ≤ a.size.toNat) (hm : a.size.toNat ≤ i + m)
    (hb : shiftLoop m (UInt32.ofNat i) a = .ok b) :
    b = ⟨a.size, a.used, a.data.bytes, shifted a.data.slot i a.size.toNat⟩ := by
  induction m generalizing a i with
  | zero =>
    rw [shifted_of_le _ (by omega)]
    exact (Except.ok.inj hb).symm
  | succ m ih =>
    have hlt := a.size.toNat_lt
    have hlast := toNat_sub_one_of_pos hpos
    have hidx : (UInt32.ofNat i).toNat = i := toNat_ofNat_of_lt (by omega)
    unfold shiftLoop at hb
    by_cases hend : i < a.size.toNat - 1
    · rw [if_pos (by rw [UInt32.lt_iff_toNat_lt]; omega), ← ofNat_add_one] at hb
      obtain ⟨e, he, hb⟩ := bind_eq_ok hb
      obtain ⟨c, hc, hb⟩ := bind_eq_ok hb
      obtain ⟨-, rfl⟩ := load_eq_ok he
      obtain ⟨-, rfl⟩ := store_eq_ok hc
      have hnext : (UInt32.ofNat (i + 1)).toNat = i + 1 := toNat_ofNat_of_lt (by omega)
      have hle : i + 1 ≤ a.size.toNat := by omega
      have hleft : a.size.toNat ≤ i + 1 + m := by omega
      rw [hnext, hidx] at hb
      rw [← shifted_succ _ hend]
      exact @ih ⟨a.size, a.used, a.data.bytes, Function.update a.data.slot i (a.data.slot (i + 1))⟩ (i + 1)
        hpos hle hleft hb
    · rw [if_neg (by rw [UInt32.lt_iff_toNat_lt]; omega)] at hb
      rw [shifted_of_le _ (by omega)]
      exact (Except.ok.inj hb).symm

/-! ### Reading -/

theorem getElem?_toList (a : ArrayT α) (i : ℕ) :
    a.toList[i]? = if i < a.used.toNat then some (a.data.slot i) else none := by
  rw [ArrayT.toList_eq, List.getElem?_map]
  split_ifs with hi
  · rw [List.getElem?_range hi, Option.map_some]
  · rw [List.getElem?_eq_none (by rw [List.length_range]; omega), Option.map_none]

theorem ArrayT.Inv.inRange_iff (h : a.Inv) (idx : UInt32) : a.InRange idx ↔ idx < a.size := by
  constructor
  · intro hin
    exact hin.1
  · intro hlt
    exact h.inRange (UInt32.lt_iff_toNat_lt.mp hlt)

/-- What is read of an array whose filled slots are there. -/
theorem arrayGet_filled (h : a.Filled) (null : α) (idx : UInt32) :
    arrayGet null a idx = .ok (a.toList[idx.toNat]?.getD null) ↔
      idx ≠ a.used ∨ a.InRange idx ∧ a.data.slot idx.toNat = null := by
  rw [getElem?_toList]
  rcases Nat.lt_trichotomy idx.toNat a.used.toNat with hlt | heq | hgt
  · have hne : idx ≠ a.used := fun he => hlt.ne (congrArg UInt32.toNat he)
    have hle : ¬ idx > a.used := by
      rw [gt_iff_lt, UInt32.lt_iff_toNat_lt]
      omega
    rw [arrayGet, if_neg hle, h.load_eq hlt, if_pos hlt]
    exact ⟨fun _ => Or.inl hne, fun _ => rfl⟩
  · obtain rfl : idx = a.used := UInt32.toNat_inj.mp heq
    rw [arrayGet, if_neg (by simp), if_neg (Nat.lt_irrefl _)]
    constructor
    · intro hget
      obtain ⟨hin, hslot⟩ := load_eq_ok hget
      exact Or.inr ⟨hin, hslot.symm⟩
    · rintro (hne | ⟨hin, hslot⟩)
      · exact absurd rfl hne
      · exact (if_pos hin).trans (congrArg Except.ok hslot)
  · have hne : idx ≠ a.used := fun he => hgt.ne (congrArg UInt32.toNat he.symm)
    rw [arrayGet, if_pos (UInt32.lt_iff_toNat_lt.mpr hgt), if_neg (by omega)]
    exact ⟨fun _ => Or.inl hne, fun _ => rfl⟩

/-! ### Operations that return -/

section Runs

variable [DecidableEq α] {op : ArrayOp δ α}

/-- A removal that returns has dropped the first element that fits. -/
theorem removeElem_filled {del : Option δ} {cmp : Option (α → α → Bool)} {r : ArrayT α × List (Disposal δ α)}
    (h : a.Filled)
    (hr : removeElem a elem del cmp = .ok r) : r.1.Filled ∧ (r.1.toList, r.2) = dropFirst elem del cmp a.toList := by
  have hused := h.used_le
  have hbytes := h.bytes
  have hlt := a.used.toNat_lt
  rcases @removeElem_cases α δ _ a elem del cmp h with ⟨hsame, hlist⟩ | ⟨k, hk, hlist, hrem⟩
  · obtain rfl := Except.ok.inj (hsame.symm.trans hr)
    exact ⟨h, hlist.symm⟩
  · rw [hrem] at hr
    cases hshift : shiftLoop a.size.toNat (UInt32.ofNat k) a with
    | error e =>
      rw [hshift] at hr
      cases hr
    | ok c =>
      rw [hshift] at hr
      obtain rfl := Except.ok.inj hr
      obtain rfl := shiftLoop_ok (by omega) (by omega) (by omega) hshift
      have hless : (a.used - 1).toNat = a.used.toNat - 1 := toNat_sub_one_of_pos (by omega)
      refine ⟨⟨?_, ?_⟩, hlist.symm⟩
      · change (a.used - 1).toNat ≤ a.size.toNat
        omega
      · change (a.used - 1).toNat * 4 ≤ a.data.bytes.toNat
        omega

/-- An operation that returns does to the array what it does to a list. -/
theorem call_filled {r : ArrayT α × List (Disposal δ α)} (h : a.Filled) (hr : op.call a = .ok r) :
    r.1.Filled ∧ (r.1.toList, r.2) = op.onList a.toList := by
  cases op with
  | add fresh elem =>
    rw [ArrayOp.call] at hr
    cases hb : arrayAdd fresh a elem with
    | error e =>
      rw [hb] at hr
      cases hr
    | ok b =>
      rw [hb] at hr
      obtain rfl := Except.ok.inj hr
      obtain ⟨hfilled, hlist⟩ := arrayAdd_filled h hb
      exact ⟨hfilled, congrArg (·, []) hlist⟩
  | remove elem => exact removeElem_filled h hr
  | removeCmp elem cmp => exact removeElem_filled h hr
  | delete elem del => exact removeElem_filled h hr
  | deleteCmp elem del cmp => exact removeElem_filled h hr

theorem filled_step {s t : ArrayT α × List (Disposal δ α)} (h : s.1.Filled) (hs : arrayMachine.step s op = some t) :
    t.1.Filled ∧ listMachine.step (s.1.toList, s.2) op = some (t.1.toList, t.2) := by
  simp only [arrayMachine] at hs
  cases hr : op.call s.1 with
  | error e =>
    rw [hr] at hs
    cases hs
  | ok r =>
    rw [hr] at hs
    obtain rfl := Option.some.inj hs
    obtain ⟨hfilled, hlist⟩ := call_filled h hr
    exact ⟨hfilled, by simp only [listMachine, ← hlist]⟩

/-- **Whatever the initial size**, the operations that return leave the elements that they leave in a list. -/
theorem filled_of_run (hc : arrayCreate fresh n = .ok a) {ops : List (ArrayOp δ α)} {s : ArrayT α × List (Disposal δ α)}
    (hr : arrayMachine.run (a, []) ops = some s) :
    s.1.Filled ∧ listMachine.run ([], []) ops = some (s.1.toList, s.2) := by
  obtain ⟨hfilled, hnil⟩ := arrayCreate_filled hc
  refine ⟨arrayMachine.invariant (I := fun s => s.1.Filled) (fun _ _ _ h hstep => (filled_step h hstep).1)
    hfilled hr, ?_⟩
  have hrun := arrayMachine.refines (N := listMachine) (I := fun s => s.1.Filled)
    (f := fun s => (s.1.toList, s.2)) (g := id)
    (fun _ _ _ h hstep => (filled_step h hstep).1) (fun _ _ _ h hstep => (filled_step h hstep).2) hfilled hr
  rwa [List.map_id, hnil] at hrun

/-- An operation may halt the machine in `kmalloc`, and otherwise stays in the block. -/
theorem call_ne_fault (h : a.Inv) (op : ArrayOp δ α) : op.call a ≠ .error .fault := by
  intro hfault
  rcases call_spec h op with ⟨fresh, elem, -, hp⟩ | ⟨b, hb, -, -⟩
  · cases hp.symm.trans hfault
  · cases hb.symm.trans hfault

/-- **`array_get`** returns what the list has at the index, or `NULL`, except at `used`: there it reads the slot,
which has to be there and to hold `NULL`. This is so where the initial size is positive and a word in bytes, so that
no operation leaves the block. -/
theorem arrayGet_iff (hpos : 1 ≤ n.toNat) (hbytes : n.toNat * 4 < 2 ^ 32) (hc : arrayCreate fresh n = .ok a)
    {ops : List (ArrayOp δ α)} {s : ArrayT α × List (Disposal δ α)} (hr : arrayMachine.run (a, []) ops = some s)
    (null : α) (idx : UInt32) :
    (∃ l, listMachine.run ([], []) ops = some (l, s.2) ∧
      (arrayGet null s.1 idx = .ok (l[idx.toNat]?.getD null) ↔
        idx ≠ s.1.used ∨ idx < s.1.size ∧ s.1.data.slot idx.toNat = null)) ∧
      ∀ op : ArrayOp δ α, op.call s.1 ≠ .error .fault := by
  obtain ⟨hfilled, hrun⟩ := filled_of_run hc hr
  have hinv : s.1.Inv := by
    refine arrayMachine.invariant (I := fun s => s.1.Inv) ?_ (arrayCreate_inv hpos hbytes hc).1 hr
    intro s op t h hstep
    exact (array_step h hstep).1
  refine ⟨⟨s.1.toList, hrun, ?_⟩, call_ne_fault hinv⟩
  rw [arrayGet_filled hfilled null idx, hinv.inRange_iff]

/-- Two elements, of which the first is removed. -/
def shiftedOps : List (ArrayOp Unit UInt32) := [.add none 5, .add none 7, .remove 5]

/-- What is left then: the second element, twice. -/
theorem run_shiftedOps : ∃ s, arrayMachine.run (⟨2, 0, 8, fun _ => 9⟩, []) shiftedOps = some s ∧
    s.1.used = 1 ∧ s.1.data.slot 1 = 7 ∧ s.1.InRange 1 := by
  have hrun : ((arrayMachine.run (⟨2, 0, 8, fun _ => 9⟩, []) shiftedOps).map fun s =>
      decide (s.1.used = 1 ∧ s.1.data.slot 1 = 7 ∧ s.1.InRange 1)) = some true := by
    decide +kernel
  obtain ⟨s, hs, hfacts⟩ := Option.map_eq_some_iff.mp hrun
  exact ⟨s, hs, of_decide_eq_true hfacts⟩

theorem arrayGet_sample : ∃ s l, arrayMachine.run (⟨2, 0, 8, fun _ => 9⟩, []) shiftedOps = some s ∧
    listMachine.run ([], []) shiftedOps = some (l, s.2) ∧
      (arrayGet 0 s.1 0 = .ok (l[(0 : UInt32).toNat]?.getD 0) ↔
        0 ≠ s.1.used ∨ 0 < s.1.size ∧ s.1.data.slot (0 : UInt32).toNat = 0) := by
  obtain ⟨s, hs, -⟩ := run_shiftedOps
  have hc : arrayCreate (some fun _ => 9) 2 = .ok (⟨2, 0, 8, fun _ => 9⟩ : ArrayT UInt32) := rfl
  obtain ⟨⟨l, hl, hget⟩, -⟩ := arrayGet_iff (by decide) (by decide) hc hs 0 0
  exact ⟨s, l, hs, hl, hget⟩

/-- At the index `used` it returns an element that the list does not have there. -/
theorem arrayGet_stale : ∃ s, arrayMachine.run (⟨2, 0, 8, fun _ => 9⟩, []) shiftedOps = some s ∧
    listMachine.run ([], []) shiftedOps = some ([7], s.2) ∧
    arrayGet 0 s.1 1 ≠ .ok ([7][(1 : UInt32).toNat]?.getD 0) := by
  obtain ⟨s, hs, hused, hslot, hin⟩ := run_shiftedOps
  have hc : arrayCreate (some fun _ => 9) 2 = .ok (⟨2, 0, 8, fun _ => 9⟩ : ArrayT UInt32) := rfl
  obtain ⟨-, hlist⟩ := filled_of_run hc hs
  have hseven : listMachine.run ([], []) shiftedOps = some ([7], [⟨none, 5⟩]) := rfl
  obtain ⟨-, hout⟩ := Prod.mk.inj (Option.some.inj (hseven.symm.trans hlist))
  refine ⟨s, hs, hout ▸ hseven, ?_⟩
  rw [arrayGet, hused, if_neg (by decide), ArrayT.load, if_pos hin]
  change Except.ok (s.1.data.slot 1) ≠ _
  rw [hslot]
  decide

end Runs

end MoltarOS.Ds.Checked
