import MoltarOS.Lib.LinkedList

/-!
# `sys/queue.h`

The `LIST` macros that the scheduler uses, as reads and writes of words. `field` is the offset of the `LIST_ENTRY`,
`le_next` its first word and `le_prev` its second.

## What is proved

* `insertAt_spec` — an insertion sets its four links and writes nothing else.
* `LIST_INSERT_HEAD_isList`, `LIST_INSERT_AFTER_isList` — so a list stays a list, with the new element in its place.
* `LIST_FOREACH_eq` — the loop visits the elements, each once and in order.
-/

namespace MoltarOS.Sched

open MoltarOS.Lib MoltarOS.Lib.Mem

/-! ### The code -/

/-- `LIST_FIRST(head)`. -/
def LIST_FIRST (m : Mem) (head : UInt32) : UInt32 := m.load32 head

/-- `LIST_NEXT(elm, field)`. -/
def LIST_NEXT (m : Mem) (elm field : UInt32) : UInt32 := m.load32 (elm + field)

/-- An insertion where `slot` points: `LIST_NEXT(elm) = *slot`, the `le_prev` of that, `*slot = elm` and
`elm->le_prev = slot`. -/
def insertAt (m : Mem) (slot elm field : UInt32) : Mem :=
  let m := m.store32 (elm + field) (m.load32 slot)
  let m := if LIST_NEXT m elm field ≠ 0 then m.store32 (m.load32 slot + field + 4) (elm + field) else m
  let m := m.store32 slot elm
  m.store32 (elm + field + 4) slot

/-- `LIST_INSERT_HEAD(head, elm, field)`. -/
def LIST_INSERT_HEAD (m : Mem) (head elm field : UInt32) : Mem := insertAt m head elm field

/-- `LIST_INSERT_AFTER(listelm, elm, field)`: the slot is `&LIST_NEXT(listelm)`. -/
def LIST_INSERT_AFTER (m : Mem) (listelm elm field : UInt32) : Mem := insertAt m (listelm + field) elm field

/-- The elements that `LIST_FOREACH(var, head, field)` visits, at most so many. -/
def LIST_FOREACH (m : Mem) (head field : UInt32) (fuel : ℕ) : List UInt32 := walkLinks m field fuel (LIST_FIRST m head)

/-! ### Lists stay lists -/

variable {m : Mem} {slot head elm p field : UInt32} {elems pre post : List UInt32}

/-- The four words that an insertion writes do not overlap. -/
structure Writes (slot elm field : UInt32) (post : List UInt32) : Prop where
  links : WordsApart (elm + field) (elm + field + 4)
  next : WordsApart (elm + field) slot
  prev : WordsApart (elm + field + 4) slot
  back : ∀ q ∈ post.head?, WordsApart (elm + field) (q + field + 4) ∧ WordsApart (elm + field + 4) (q + field + 4) ∧
    WordsApart slot (q + field + 4)

/-- **What an insertion does.** -/
theorem insertAt_spec (hslot : m.load32 slot = post.headD 0) (hne : 0 ∉ post) (hw : Writes slot elm field post) :
    Inserted m (insertAt m slot elm field) field slot elm post ∧
      ∀ x, WordsApart x slot → (∀ q ∈ post.head?, WordsApart x (q + field + 4)) → WordsApart x (elm + field) →
        WordsApart x (elm + field + 4) → (insertAt m slot elm field).load32 x = m.load32 x := by
  cases post with
  | nil =>
    have heq : insertAt m slot elm field =
        ((m.store32 (elm + field) 0).store32 slot elm).store32 (elm + field + 4) slot := by
      simp only [insertAt, LIST_NEXT, load32_store32, hslot, List.headD_nil, ne_eq, not_true_eq_false, if_false]
    rw [heq]
    refine ⟨⟨?_, ?_, load32_store32 _ _ _, fun q hq => by cases hq⟩, fun x hs _ hn hp => ?_⟩
    · rw [load32_store32_apart _ hw.prev, load32_store32]
    · rw [load32_store32_apart _ hw.links.symm, load32_store32_apart _ hw.next.symm, load32_store32]
      rfl
    · rw [load32_store32_apart _ hp.symm, load32_store32_apart _ hs.symm, load32_store32_apart _ hn.symm]
  | cons q qs =>
    obtain ⟨hnq, hpq, hsq⟩ := hw.back q rfl
    have hq : q ≠ 0 := fun hq => hne (hq ▸ List.mem_cons_self)
    have heq : insertAt m slot elm field =
        (((m.store32 (elm + field) q).store32 (q + field + 4) (elm + field)).store32 slot elm).store32
          (elm + field + 4) slot := by
      simp only [insertAt, LIST_NEXT, load32_store32, hslot, List.headD_cons, ne_eq, hq, not_false_eq_true, if_true,
        load32_store32_apart _ hw.next]
    rw [heq]
    refine ⟨⟨?_, ?_, load32_store32 _ _ _, ?_⟩, fun x hs hb hn hp => ?_⟩
    · rw [load32_store32_apart _ hw.prev, load32_store32]
    · rw [load32_store32_apart _ hw.links.symm, load32_store32_apart _ hw.next.symm,
        load32_store32_apart _ hnq.symm, load32_store32]
      rfl
    · rintro q' ⟨⟩
      rw [load32_store32_apart _ hpq, load32_store32_apart _ hsq, load32_store32]
    · rw [load32_store32_apart _ hp.symm, load32_store32_apart _ hs.symm, load32_store32_apart _ (hb q rfl).symm,
        load32_store32_apart _ hn.symm]

/-- A word of the list is none of a new element. -/
theorem untouched_insertAt (hslot : m.load32 slot = post.headD 0) (hne : 0 ∉ post) (hw : Writes slot elm field post)
    (hnew : ∀ x ∈ cells field head elems, WordsApart (elm + field) x ∧ WordsApart (elm + field + 4) x) :
    Untouched m (insertAt m slot elm field) field slot post (cells field head elems) := fun x hx hs hb =>
  (insertAt_spec hslot hne hw).2 x hs hb (hnew x hx).1.symm (hnew x hx).2.symm

theorem writes_head (h : IsList m field head elems) (hc : Fresh field head elm elems) :
    Writes head elm field elems := by
  have hcell := fun (q : UInt32) (hq : q ∈ elems.head?) => hc.apart _ (head_mem_cells hq)
  exact ⟨hc.links, (hc.apart _ slot_mem_cells).1, (hc.apart _ slot_mem_cells).2, fun q hq =>
    ⟨(hcell q hq).1, (hcell q hq).2, slot_apart h.apart hq⟩⟩

theorem writes_after (h : IsList m field head (pre ++ p :: post)) (hc : Fresh field head elm (pre ++ p :: post)) :
    Writes (p + field) elm field post := by
  have hcell := fun x hx => hc.apart x (cells_suffix.subset hx)
  exact ⟨hc.links, (hcell _ slot_mem_cells).1, (hcell _ slot_mem_cells).2, fun q hq =>
    ⟨(hcell _ (head_mem_cells hq)).1, (hcell _ (head_mem_cells hq)).2,
      slot_apart (h.apart.sublist cells_suffix.sublist) hq⟩⟩

theorem nonnull_after (h : IsList m field head (pre ++ p :: post)) : 0 ∉ post := fun hmem =>
  h.nonnull (List.mem_append_right _ (List.mem_cons_of_mem _ hmem))

/-- **A new first element.** -/
theorem LIST_INSERT_HEAD_isList (h : IsList m field head elems) (hc : Fresh field head elm elems) :
    IsList (LIST_INSERT_HEAD m head elm field) field head (elm :: elems) := by
  have hslot := h.chain.first
  have hw := writes_head h hc
  exact h.insertFront hc (insertAt_spec hslot h.nonnull hw).1 (untouched_insertAt hslot h.nonnull hw hc.apart)

/-- **A new element behind another.** -/
theorem LIST_INSERT_AFTER_isList (h : IsList m field head (pre ++ p :: post))
    (hc : Fresh field head elm (pre ++ p :: post)) :
    IsList (LIST_INSERT_AFTER m p elm field) field head (pre ++ p :: elm :: post) := by
  have hslot := h.chain.next
  have hw := writes_after h hc
  exact h.insert hc (insertAt_spec hslot (nonnull_after h) hw).1
    (untouched_insertAt hslot (nonnull_after h) hw hc.apart)

/-- Words that are not of the list. -/
theorem load32_LIST_INSERT_HEAD (h : IsList m field head elems) (hc : Fresh field head elm elems) {x : UInt32}
    (hx : ∀ y ∈ cells field head (elm :: elems), WordsApart x y) :
    (LIST_INSERT_HEAD m head elm field).load32 x = m.load32 x := by
  refine (insertAt_spec h.chain.first h.nonnull (writes_head h hc)).2 x (hx _ slot_mem_cells) (fun q hq => ?_) ?_ ?_
  · exact hx _ (mem_cells.mpr (.inr ⟨q, List.mem_cons_of_mem _ (List.mem_of_mem_head? hq), .inr rfl⟩))
  · exact hx _ (mem_cells.mpr (.inr ⟨elm, List.mem_cons_self, .inl rfl⟩))
  · exact hx _ (mem_cells.mpr (.inr ⟨elm, List.mem_cons_self, .inr rfl⟩))

theorem load32_LIST_INSERT_AFTER (h : IsList m field head (pre ++ p :: post))
    (hc : Fresh field head elm (pre ++ p :: post))
    {x : UInt32} (hx : ∀ y ∈ cells field head (pre ++ p :: elm :: post), WordsApart x y) :
    (LIST_INSERT_AFTER m p elm field).load32 x = m.load32 x := by
  have hmem : ∀ q ∈ p :: elm :: post, ∀ y, y = q + field ∨ y = q + field + 4 → WordsApart x y := fun q hq y hy =>
    hx y (mem_cells.mpr (.inr ⟨q, List.mem_append_right _ hq, hy⟩))
  refine (insertAt_spec h.chain.next (nonnull_after h) (writes_after h hc)).2 x ?_ (fun q hq => ?_) ?_ ?_
  · exact hmem p List.mem_cons_self _ (.inl rfl)
  · exact hmem q (List.mem_cons_of_mem _ (List.mem_cons_of_mem _ (List.mem_of_mem_head? hq))) _ (.inr rfl)
  · exact hmem elm (List.mem_cons_of_mem _ List.mem_cons_self) _ (.inl rfl)
  · exact hmem elm (List.mem_cons_of_mem _ List.mem_cons_self) _ (.inr rfl)

/-- **`LIST_FOREACH` visits the elements, each once and in order.** -/
theorem LIST_FOREACH_eq (h : IsList m field head elems) {fuel : ℕ} (hfuel : elems.length < fuel) :
    LIST_FOREACH m head field fuel = elems := h.chain.links.walk h.nonnull hfuel

end MoltarOS.Sched
