import Mathlib.Data.List.Nodup
import Mathlib.Data.List.Range
import Mathlib.Logic.Function.Basic

/-!
# Dynamic arrays

`ds/array.c`: a block of slots of which the first `used` are filled, and which is replaced by
one twice as large when it is full. What a block holds when `kmalloc` returns it is a
parameter.

## What is proved

* `toList_arrayAdd` — `array_add` appends to the list of the filled slots.
* `arrayGet_eq` — below `used`, `array_get` gives the element of that list.
-/

namespace MoltarOS.Ds

/-- `array_t`. -/
structure ArrayT (α : Type*) where
  /-- How many slots there are. -/
  size : ℕ
  /-- How many are filled. -/
  used : ℕ
  /-- The slots. -/
  data : ℕ → α

/-- `growth_factor`. -/
def growthFactor : ℕ := 2

variable {α : Type*} {kmalloc : ℕ → ℕ → α} {a : ArrayT α} {elem : α}

/-- `array_create(initial_size)`, `kmalloc n` being what a block of `n` slots holds. -/
def arrayCreate (kmalloc : ℕ → ℕ → α) (initialSize : ℕ) : ArrayT α := ⟨initialSize, 0, kmalloc initialSize⟩

/-- Full? Allocate more. -/
def ArrayT.grow (kmalloc : ℕ → ℕ → α) (a : ArrayT α) : ArrayT α :=
  if a.used = a.size then
    let size := a.size * growthFactor
    -- `memcpy` of the filled slots
    { a with size := size, data := fun i => if i < a.used then a.data i else kmalloc size i }
  else a

/-- `array_add(array, elem)`. -/
def arrayAdd (kmalloc : ℕ → ℕ → α) (a : ArrayT α) (elem : α) : ArrayT α :=
  let a := a.grow kmalloc
  { a with used := a.used + 1, data := Function.update a.data a.used elem }

/-- `array_get(array, idx)`. -/
def arrayGet (a : ArrayT α) (idx : ℕ) : Option α := if idx > a.used then none else some (a.data idx)

/-! ### The list of elements -/

/-- The elements. -/
def ArrayT.toList (a : ArrayT α) : List α := (List.range a.used).map a.data

theorem arrayGet_eq {idx : ℕ} (h : idx < a.used) : arrayGet a idx = a.toList[idx]? := by
  rw [arrayGet, if_neg (by omega), ArrayT.toList, List.getElem?_map, List.getElem?_range h, Option.map_some]

theorem arrayGet_of_lt {idx : ℕ} (h : idx < a.used) : arrayGet a idx = some (a.data idx) := if_neg (by omega)

@[simp] theorem grow_used : (a.grow kmalloc).used = a.used := by
  rw [ArrayT.grow]
  split_ifs <;> rfl

theorem grow_data {i : ℕ} (h : i < a.used) : (a.grow kmalloc).data i = a.data i := by
  rw [ArrayT.grow]
  split_ifs
  · exact if_pos h
  · rfl

@[simp] theorem arrayAdd_used : (arrayAdd kmalloc a elem).used = a.used + 1 := congrArg (· + 1) grow_used

theorem arrayAdd_update : (arrayAdd kmalloc a elem).data = Function.update (a.grow kmalloc).data a.used elem := by
  rw [← @grow_used α kmalloc a]
  rfl

/-- The elements that are there stay. -/
theorem arrayAdd_data {i : ℕ} (h : i < a.used) : (arrayAdd kmalloc a elem).data i = a.data i := by
  rw [arrayAdd_update, Function.update_of_ne (by omega), grow_data h]

@[simp] theorem arrayAdd_data_used : (arrayAdd kmalloc a elem).data a.used = elem := by
  rw [arrayAdd_update, Function.update_self]

theorem toList_arrayAdd : (arrayAdd kmalloc a elem).toList = a.toList ++ [elem] := by
  rw [ArrayT.toList, arrayAdd_used, List.range_succ, List.map_append, List.map_singleton, arrayAdd_data_used]
  congr 1
  exact List.map_congr_left fun i hi => arrayAdd_data (List.mem_range.mp hi)

/-- Elements of an array without duplicates are at one index each. -/
theorem data_injective (h : a.toList.Nodup) {i j : ℕ} (hi : i < a.used) (hj : j < a.used) (he : a.data i = a.data j) :
    i = j :=
  List.inj_on_of_nodup_map h (List.mem_range.mpr hi) (List.mem_range.mpr hj) he

theorem data_mem {i : ℕ} (h : i < a.used) : a.data i ∈ a.toList := List.mem_map_of_mem (List.mem_range.mpr h)

theorem nodup_arrayAdd (h : a.toList.Nodup) (he : elem ∉ a.toList) : (arrayAdd kmalloc a elem).toList.Nodup := by
  rw [toList_arrayAdd]
  exact List.nodup_append.mpr ⟨h, List.nodup_singleton elem, fun u hu v hv => by
    rw [List.mem_singleton.mp hv]
    exact fun huv => he (huv ▸ hu)⟩

end MoltarOS.Ds
