import MoltarOS.Lib.Memory

/-!
# Linked lists in memory

A list whose links are part of its elements: two words of each, at the same offset, hold the address of the next
element, or 0, and the address of the word that points to this one. The first is pointed to by a word outside, the head.

`IsList` says that the words are such a list. It depends on these words alone, and is kept by an insertion that sets
the four links. `Links` is about the forward links alone, which is all that a list linked one way has.
-/

namespace MoltarOS.Lib

open Word Mem

variable {m m' : Mem} {field slot head p c : UInt32} {elems pre post : List UInt32}

/-! ### Links -/

/-- From the word at `slot` on, each element has the address of the next. -/
def Links (m : Mem) (field : UInt32) : UInt32 → List UInt32 → Prop
  | slot, [] => m.load32 slot = 0
  | slot, e :: es => m.load32 slot = e ∧ Links m field (e + field) es

namespace Links

theorem first (h : Links m field slot elems) : m.load32 slot = elems.headD 0 := by
  cases elems with
  | nil => exact h
  | cons e es => exact h.1

/-- Another word may point to the first element, and the links be read in another memory. -/
theorem congr (h : Links m field slot elems) {slot' : UInt32} (hslot : m'.load32 slot' = m.load32 slot)
    (heq : ∀ e ∈ elems, m'.load32 (e + field) = m.load32 (e + field)) : Links m' field slot' elems := by
  induction elems generalizing slot slot' with
  | nil => exact hslot.trans h
  | cons e es ih =>
    obtain ⟨he, hes⟩ := List.forall_mem_cons.mp heq
    exact ⟨hslot.trans h.1, ih h.2 he hes⟩

end Links

/-! ### Lists -/

/-- From the word at `slot` on, the links are those of the elements. -/
def Chain (m : Mem) (field : UInt32) : UInt32 → List UInt32 → Prop
  | slot, [] => m.load32 slot = 0
  | slot, e :: es => m.load32 slot = e ∧ m.load32 (e + field + 4) = slot ∧ Chain m field (e + field) es

/-- The words that make up the list. -/
def cells (field : UInt32) : UInt32 → List UInt32 → List UInt32
  | slot, [] => [slot]
  | slot, e :: es => slot :: (e + field + 4) :: cells field (e + field) es

/-- The words are a list of the elements. -/
structure IsList (m : Mem) (field head : UInt32) (elems : List UInt32) : Prop where
  /-- The links. -/
  chain : Chain m field head elems
  /-- They do not overlap. -/
  apart : (cells field head elems).Pairwise WordsApart
  /-- No element is at address 0. -/
  nonnull : 0 ∉ elems

theorem slot_mem_cells : slot ∈ cells field slot elems := by
  cases elems <;> exact List.mem_cons_self

theorem mem_cells {x : UInt32} : x ∈ cells field slot elems ↔ x = slot ∨ ∃ e ∈ elems, x = e + field ∨
    x = e + field + 4 := by
  induction elems generalizing slot with
  | nil => simp [cells]
  | cons e es ih =>
    simp only [cells, List.mem_cons, ih, exists_eq_or_imp]
    grind

/-- The words from an element's link on. -/
theorem cells_suffix : cells field (p + field) post <:+ cells field slot (pre ++ p :: post) := by
  induction pre generalizing slot with
  | nil => exact (List.suffix_cons _ _).trans (List.suffix_cons _ _)
  | cons e pre ih => exact ih.trans ((List.suffix_cons _ _).trans (List.suffix_cons _ _))

theorem head_mem_cells {q : UInt32} (hq : q ∈ elems.head?) : q + field + 4 ∈ cells field slot elems :=
  mem_cells.mpr (.inr ⟨q, List.mem_of_mem_head? hq, .inr rfl⟩)

/-- The word that points to an element, and the one that points back. -/
theorem slot_apart (h : (cells field slot elems).Pairwise WordsApart) {q : UInt32} (hq : q ∈ elems.head?) :
    WordsApart slot (q + field + 4) := by
  cases elems with
  | nil => cases hq
  | cons e es =>
    obtain rfl : e = q := Option.some.inj hq
    exact (List.pairwise_cons.mp h).1 _ List.mem_cons_self

/-- The list depends on its words alone. -/
theorem Chain.congr (h : Chain m field slot elems) (heq : ∀ x ∈ cells field slot elems, m'.load32 x = m.load32 x) :
    Chain m' field slot elems := by
  induction elems generalizing slot with
  | nil => exact (heq slot List.mem_cons_self).trans h
  | cons e es ih =>
    obtain ⟨hnext, hprev, hrest⟩ := h
    obtain ⟨hslot, hback, hothers⟩ := List.forall_mem_cons.mp heq |>.imp_right List.forall_mem_cons.mp
    exact ⟨hslot.trans hnext, hback.trans hprev, ih hrest hothers⟩

theorem IsList.congr (h : IsList m field head elems) (heq : ∀ x ∈ cells field head elems, m'.load32 x = m.load32 x) :
    IsList m' field head elems := ⟨h.chain.congr heq, h.apart, h.nonnull⟩

/-! ### Reading the links -/

theorem Chain.links (h : Chain m field slot elems) : Links m field slot elems := by
  induction elems generalizing slot with
  | nil => exact h
  | cons e es ih => exact ⟨h.1, ih h.2.2⟩

theorem Chain.first (h : Chain m field slot elems) : m.load32 slot = elems.headD 0 := h.links.first

theorem Chain.next (h : Chain m field slot (pre ++ p :: post)) : m.load32 (p + field) = post.headD 0 := by
  induction pre generalizing slot with
  | nil => exact h.2.2.first
  | cons e pre ih => exact ih h.2.2

/-! ### Insertion -/

/-- Four links for a new element `c` that the word at `slot` is to point to, before the elements `post`. -/
structure Inserted (m m' : Mem) (field slot c : UInt32) (post : List UInt32) : Prop where
  next : m'.load32 slot = c
  newNext : m'.load32 (c + field) = post.headD 0
  newPrev : m'.load32 (c + field + 4) = slot
  prev : ∀ q ∈ post.head?, m'.load32 (q + field + 4) = c + field

/-- No other word of the list is written. -/
def Untouched (m m' : Mem) (field slot : UInt32) (post words : List UInt32) : Prop :=
  ∀ x ∈ words, WordsApart x slot → (∀ q ∈ post.head?, WordsApart x (q + field + 4)) → m'.load32 x = m.load32 x

theorem Chain.insertFront (h : Chain m field slot post) (hi : Inserted m m' field slot c post)
    (hapart : (cells field slot post).Pairwise WordsApart)
    (hframe : Untouched m m' field slot post (cells field slot post)) :
    Chain m' field slot (c :: post) := by
  refine ⟨hi.next, hi.newPrev, ?_⟩
  cases post with
  | nil => exact hi.newNext
  | cons q qs =>
    obtain ⟨hslot, hback, -⟩ := (List.pairwise_cons.mp hapart).imp_right List.pairwise_cons.mp
    refine ⟨hi.newNext, hi.prev q rfl, h.2.2.congr fun x hx => hframe x ?_ ?_ ?_⟩
    · exact List.mem_cons_of_mem _ (List.mem_cons_of_mem _ hx)
    · exact (hslot x (List.mem_cons_of_mem _ hx)).symm
    · rintro q' ⟨⟩
      exact (hback x hx).symm

theorem Chain.insert (h : Chain m field slot (pre ++ p :: post)) (hi : Inserted m m' field (p + field) c post)
    (hapart : (cells field slot (pre ++ p :: post)).Pairwise WordsApart)
    (hframe : Untouched m m' field (p + field) post (cells field slot (pre ++ p :: post))) :
    Chain m' field slot (pre ++ p :: c :: post) := by
  have hp : ∀ pre slot, p + field ∈ cells field slot (pre ++ p :: post) := fun pre slot =>
    mem_cells.mpr (.inr ⟨p, by simp, .inl rfl⟩)
  have hq : ∀ pre slot, ∀ q ∈ post.head?, q + field + 4 ∈ cells field slot (pre ++ p :: post) := fun pre slot q hq =>
    mem_cells.mpr (.inr ⟨q, by simp [List.mem_of_mem_head? hq], .inr rfl⟩)
  induction pre generalizing slot with
  | nil =>
    obtain ⟨hslot, hback, hrest⟩ := h
    obtain ⟨hslot', hback', hpost⟩ := (List.pairwise_cons.mp hapart).imp_right List.pairwise_cons.mp
    refine ⟨(hframe slot slot_mem_cells ?_ ?_).trans hslot, (hframe _ ?_ ?_ ?_).trans hback,
      hrest.insertFront hi hpost fun x hx =>
      hframe x ?_⟩
    · exact hslot' _ (List.mem_cons_of_mem _ slot_mem_cells)
    · exact fun q hq => hslot' _ (List.mem_cons_of_mem _ (head_mem_cells hq))
    · exact List.mem_cons_of_mem _ List.mem_cons_self
    · exact hback' _ slot_mem_cells
    · exact fun q hq => hback' _ (head_mem_cells hq)
    · exact List.mem_cons_of_mem _ (List.mem_cons_of_mem _ hx)
  | cons e pre ih =>
    obtain ⟨hslot, hback, hrest⟩ := h
    obtain ⟨hslot', hback', hpost⟩ := (List.pairwise_cons.mp hapart).imp_right List.pairwise_cons.mp
    refine ⟨(hframe slot slot_mem_cells ?_ ?_).trans hslot, (hframe _ ?_ ?_ ?_).trans hback,
      ih hrest hpost fun x hx => hframe x ?_⟩
    · exact hslot' _ (List.mem_cons_of_mem _ (hp pre _))
    · exact fun q hq' => hslot' _ (List.mem_cons_of_mem _ (hq pre _ q hq'))
    · exact List.mem_cons_of_mem _ List.mem_cons_self
    · exact hback' _ (hp pre _)
    · exact fun q hq' => hback' _ (hq pre _ q hq')
    · exact List.mem_cons_of_mem _ (List.mem_cons_of_mem _ hx)

theorem cells_eq (field slot : UInt32) (elems : List UInt32) :
    cells field slot elems = slot :: elems.flatMap fun e => [e + field + 4, e + field] := by
  induction elems generalizing slot with
  | nil => rfl
  | cons e es ih => rw [cells, ih, List.flatMap_cons, List.cons_append, List.singleton_append]

/-- A new element adds its words. -/
theorem cells_insert_perm (field slot c : UInt32) (pre post : List UInt32) :
    (cells field slot (pre ++ c :: post)).Perm ((c + field + 4) :: (c + field) :: cells field slot (pre ++ post)) := by
  rw [cells_eq, cells_eq, List.flatMap_append, List.flatMap_append, List.flatMap_cons]
  refine (List.Perm.cons slot (List.perm_append_comm_assoc _ _ _)).trans ?_
  exact (List.Perm.swap _ _ _).trans (List.Perm.cons _ (List.Perm.swap _ _ _))

theorem pairwise_insert (pre : List UInt32) (h : (cells field slot (pre ++ post)).Pairwise WordsApart)
    (hc : WordsApart (c + field) (c + field + 4))
    (hnew : ∀ x ∈ cells field slot (pre ++ post), WordsApart (c + field) x ∧ WordsApart (c + field + 4) x) :
    (cells field slot (pre ++ c :: post)).Pairwise WordsApart := by
  rw [(cells_insert_perm field slot c pre post).pairwise_iff fun h => h.symm, List.pairwise_cons, List.pairwise_cons]
  refine ⟨fun x hx => ?_, fun x hx => (hnew x hx).1, h⟩
  rcases List.mem_cons.mp hx with rfl | hx
  exacts [hc.symm, (hnew x hx).2]

/-- An element that is not in the list, with its two words. -/
structure Fresh (field head c : UInt32) (elems : List UInt32) : Prop where
  nonnull : c ≠ 0
  links : WordsApart (c + field) (c + field + 4)
  apart : ∀ x ∈ cells field head elems, WordsApart (c + field) x ∧ WordsApart (c + field + 4) x

theorem IsList.nonnull_insert (pre : List UInt32) (h : 0 ∉ pre ++ post) (hc : c ≠ 0) : 0 ∉ pre ++ c :: post := by
  simp only [List.mem_append, List.mem_cons, not_or] at h ⊢
  exact ⟨h.1, hc.symm, h.2⟩

/-- **A new first element.** -/
theorem IsList.insertFront (h : IsList m field head elems) (hc : Fresh field head c elems)
    (hi : Inserted m m' field head c elems)
    (hframe : Untouched m m' field head elems (cells field head elems)) : IsList m' field head (c :: elems) where
  chain := h.chain.insertFront hi h.apart hframe
  apart := pairwise_insert [] h.apart hc.links hc.apart
  nonnull := IsList.nonnull_insert [] h.nonnull hc.nonnull

/-- **A new element behind another.** -/
theorem IsList.insert (h : IsList m field head (pre ++ p :: post)) (hc : Fresh field head c (pre ++ p :: post))
    (hi : Inserted m m' field (p + field) c post)
    (hframe : Untouched m m' field (p + field) post (cells field head (pre ++ p :: post))) :
    IsList m' field head (pre ++ p :: c :: post) := by
  have hsplit : ∀ rest, pre ++ p :: rest = (pre ++ [p]) ++ rest :=
    fun rest => by rw [List.append_assoc, List.singleton_append]
  refine ⟨h.chain.insert hi h.apart hframe, ?_, ?_⟩
  · rw [hsplit]
    exact pairwise_insert _ (hsplit post ▸ h.apart) hc.links (hsplit post ▸ hc.apart)
  · rw [hsplit]
    exact IsList.nonnull_insert _ (hsplit post ▸ h.nonnull) hc.nonnull

/-! ### Walking along the list -/

/-- From `elm` on, following the links, at most so many elements. -/
def walkLinks (m : Mem) (field : UInt32) : ℕ → UInt32 → List UInt32
  | 0, _ => []
  | fuel + 1, elm => if elm = 0 then [] else elm :: walkLinks m field fuel (m.load32 (elm + field))

/-- **A walk from the head passes every element once, in order, and ends.** -/
theorem Links.walk (h : Links m field slot elems) (hne : 0 ∉ elems) {fuel : ℕ} (hfuel : elems.length < fuel) :
    walkLinks m field fuel (m.load32 slot) = elems := by
  induction elems generalizing slot fuel with
  | nil =>
    obtain ⟨fuel, rfl⟩ := Nat.exists_eq_succ_of_ne_zero (by omega : fuel ≠ 0)
    exact if_pos h
  | cons e es ih =>
    obtain ⟨fuel, rfl⟩ := Nat.exists_eq_succ_of_ne_zero (by omega : fuel ≠ 0)
    rw [List.mem_cons, not_or] at hne
    rw [h.1, walkLinks, if_neg (Ne.symm hne.1), ih h.2 hne.2 (by rw [List.length_cons] at hfuel; omega)]

end MoltarOS.Lib
