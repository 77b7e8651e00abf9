import MoltarOS.Mm.HeapSafety

/-!
# What the heap does not depend on

The identifiers in a bitmap may depend on what users write: beside the last block, `memheap_alloc`
chooses them against the first byte behind the bitmap. But which entries are free, and where a run of
one identifier ends, is given by the live allocations alone, and so is all that users see.

## What is proved

* `BlockInv.allocIn_agree` — in two memories with the same allocations, a superblock serves a
  request in the same way.
* `noninterference` — two runs of the same calls return the same pointers and show the same `used`,
  whatever was in the regions and whatever users write.
-/

namespace MoltarOS.Mm

open MoltarOS.Lib MoltarOS.Lib.Word MoltarOS.Libc

/-! ### One superblock -/

section Superblock

variable {m m' : Mem} {b : Memblock} {segs : Set Seg}

/-- The allocations tell which entries are free. -/
theorem BlockInv.eq_free_iff (h : BlockInv m b segs) {k : ℕ} (hk : k < b.count) :
    entry m b k = FREE ↔ b.reserved ≤ k ∧ ∀ t ∈ segs, k ∉ t := by
  by_cases hlo : b.reserved ≤ k
  · rw [h.tiles.eq_free_iff hlo hk]
    exact ⟨fun hno => ⟨hlo, hno⟩, fun hno => hno.2⟩
  · rw [h.pre k (Nat.lt_of_not_le hlo)]
    exact iff_of_false (by decide) fun hno => hlo hno.1

/-- Runs of free entries are the same in both memories. -/
theorem BlockInv.runAt_agree (h : BlockInv m b segs) (h' : BlockInv m' b segs) {n i : ℕ} :
    RunAt m (memblockGetBitmap b) n b.count i ↔ RunAt m' (memblockGetBitmap b) n b.count i := by
  unfold RunAt
  refine and_congr_right fun hle => forall₂_congr fun k hk => ?_
  exact (h.eq_free_iff (by omega)).trans (h'.eq_free_iff (by omega)).symm

/-- A scan has one result. -/
theorem FirstRun.unique {bitmap : UInt32} {n count i₀ : ℕ} {r r' : Option UInt32}
    (hagree : ∀ i, RunAt m bitmap n count i ↔ RunAt m' bitmap n count i) (h : FirstRun m bitmap n count i₀ r)
    (h' : FirstRun m' bitmap n count i₀ r') : r = r' := by
  rcases h with ⟨i, rfl, hi, hrun, hfirst⟩ | ⟨rfl, hnone⟩ <;>
    rcases h' with ⟨j, rfl, hj, hrun', hfirst'⟩ | ⟨rfl, hnone'⟩
  · have hij : i = j := by
      rcases Nat.lt_trichotomy i j with hlt | heq | hlt
      · exact absurd ((hagree i).mp hrun) (hfirst' i hi hlt)
      · exact heq
      · exact absurd ((hagree j).mpr hrun') (hfirst j hj hlt)
    rw [hij]
  · exact absurd ((hagree i).mp hrun) (hnone' i hi)
  · exact absurd ((hagree j).mpr hrun') (hnone j hj)
  · rfl

/-- What the caller sees of a request: the pointer, and the header. -/
theorem BlockInv.allocIn_agree (h : BlockInv m b segs) (h' : BlockInv m' b segs) {size : UInt32}
    (hsize : 0 < size.toNat) :
    (allocIn m size b).map (fun r => (r.1, r.2.2)) = (allocIn m' size b).map (fun r => (r.1, r.2.2)) := by
  unfold allocIn
  split_ifs with hfit
  · have hscan := FirstRun.unique (fun i => h.runAt_agree h') (h.findRun_first hsize hfit) (h'.findRun_first hsize hfit)
    simp only [hscan]
    cases findRun m' (memblockGetBitmap b) (CEILING size b.blockSize) (memblockGetBlockCount b)
      (memblockGetBlockCount b).toNat 0 <;> rfl
  · rfl

end Superblock

/-! ### The heap -/

/-- What the caller sees of a request to the whole heap. -/
theorem memheapAlloc_agree {m m' : Mem} {size : UInt32} {heap : MemHeap}
    (h : ∀ b ∈ heap, (allocIn m size b).map (fun r => (r.1, r.2.2)) = (allocIn m' size b).map (fun r => (r.1, r.2.2))) :
    (memheapAlloc m size heap).map (fun r => (r.1, r.2.2)) =
      (memheapAlloc m' size heap).map (fun r => (r.1, r.2.2)) := by
  induction heap with
  | nil => rfl
  | cons b rest ih =>
    obtain ⟨hb, hrest⟩ := List.forall_mem_cons.mp h
    have ih' := ih hrest
    unfold memheapAlloc
    cases h1 : allocIn m size b with
    | some r =>
      cases h2 : allocIn m' size b with
      | some r' =>
        rw [h1, h2] at hb
        simp only [Option.map_some, Option.some.injEq, Prod.mk.injEq] at hb ⊢
        rw [hb.1, hb.2]
        exact ⟨rfl, rfl⟩
      | none => simp [h1, h2] at hb
    | none =>
      cases h2 : allocIn m' size b with
      | some r' => simp [h1, h2] at hb
      | none =>
        have hcons := congrArg (Option.map fun r : UInt32 × MemHeap => (r.1, b :: r.2)) ih'
        rw [Option.map_map, Option.map_map] at hcons ⊢
        exact hcons

/-- What the two states of two runs have in common: all but the memory. -/
structure HeapState.Agree (s t : HeapState) : Prop where
  /-- The invariant of the one. -/
  left : s.Inv
  /-- The invariant of the other. -/
  right : t.Inv
  /-- The headers. -/
  heap : s.heap = t.heap
  /-- The live allocations. -/
  live : s.live = t.live
  /-- The regions. -/
  added : s.added = t.added

namespace HeapState.Agree

variable {s s' t t' : HeapState}

/-- A user writes, in one of the runs. -/
theorem write (h : s.Agree t) {a : UInt32} {v : UInt8} (hs : heapMachine.step s (.write a v) = some s') :
    s'.Agree t := by
  have hinv := step_inv h.left hs
  simp only [heapMachine, HeapState.step] at hs
  split_ifs at hs
  cases hs
  exact ⟨hinv, h.right, h.heap, h.live, h.added⟩

theorem symm (h : s.Agree t) : t.Agree s := ⟨h.right, h.left, h.heap.symm, h.live.symm, h.added.symm⟩

/-- A region is added in both. -/
theorem add (h : s.Agree t) {r : Region} (hs : heapMachine.step s (.add r) = some s')
    (ht : heapMachine.step t (.add r) = some t') : s'.Agree t' := by
  have hs' := step_inv h.left hs
  have ht' := step_inv h.right ht
  simp only [heapMachine, HeapState.step, r.memheapAddBlock_eq] at hs ht
  split_ifs at hs ht <;> cases hs <;> cases ht
  all_goals refine ⟨hs', ht', ?_, h.live, congrArg (r :: ·) h.added⟩
  · rfl
  · exact congrArg (r.superblock :: ·) h.heap

/-- The headers after `memheap_free` of a live pointer. -/
theorem free_heap (h : s.Agree t) {x : Alloc} (hx : x ∈ s.live) :
    (memheapFree s.mem x.ptr s.heap).2 = (memheapFree t.mem x.ptr t.heap).2 := by
  have hx' : x ∈ t.live := h.live ▸ hx
  rcases h.left.superblocks.free_cases hx fun b hb _ => h.left.below hb with
    ⟨pre, b, post, u, hheap, hbu, hholds, heq, hrel⟩ | ⟨hout, heq⟩
  · have hheap' : t.heap = pre ++ b :: post := h.heap ▸ hheap
    have hbt : b ∈ t.heap := by rw [hheap']; simp
    have hrel' := (h.right.inv b hbt).freeIn_eq (h.right.below hbt) ⟨x, hx', hbu⟩ hbu.ptr
    rw [heq, h.right.superblocks.memheapFree_at hheap' hholds]
    simp only [hrel.header, hrel'.header]
  · rw [heq, memheapFree_of_not_holds (h.heap ▸ hout)]
    exact h.heap

/-- A live pointer is freed in both. -/
theorem free (h : s.Agree t) {p : UInt32} (hs : heapMachine.step s (.free p) = some s')
    (ht : heapMachine.step t (.free p) = some t') : s'.Agree t' := by
  have hs' := step_inv h.left hs
  have ht' := step_inv h.right ht
  simp only [heapMachine, HeapState.step] at hs ht
  split_ifs at hs ht with hp
  cases hs
  cases ht
  obtain ⟨x, hx, rfl⟩ := hp
  exact ⟨hs', ht', h.free_heap hx, by rw [h.live], h.added⟩

/-- The pointer and the headers after `memheap_alloc`. -/
theorem alloc_seen (h : s.Agree t) {size : UInt32} (hsize : 0 < size.toNat) :
    (memheapAlloc s.mem size s.heap).map (fun r => (r.1, r.2.2)) =
      (memheapAlloc t.mem size t.heap).map (fun r => (r.1, r.2.2)) := by
  rw [← h.heap]
  refine memheapAlloc_agree fun b hb => ?_
  have hb' := h.right.inv b (h.heap ▸ hb)
  rw [← h.live] at hb'
  exact (h.left.inv b hb).allocIn_agree hb' hsize

/-- A request is made in both. -/
theorem alloc (h : s.Agree t) {size : UInt32} (hs : heapMachine.step s (.alloc size) = some s')
    (ht : heapMachine.step t (.alloc size) = some t') :
    s'.Agree t' ∧ (memheapAlloc s.mem size s.heap).map Prod.fst = (memheapAlloc t.mem size t.heap).map Prod.fst := by
  have hs' := step_inv h.left hs
  have ht' := step_inv h.right ht
  simp only [heapMachine, HeapState.step] at hs ht
  split_ifs at hs ht with hsize
  have hseen := h.alloc_seen hsize
  cases h1 : memheapAlloc s.mem size s.heap with
  | none =>
    cases h2 : memheapAlloc t.mem size t.heap with
    | none =>
      simp only [h1, h2] at hs ht
      cases hs
      cases ht
      exact ⟨h, rfl⟩
    | some r => simp [h1, h2] at hseen
  | some r =>
    cases h2 : memheapAlloc t.mem size t.heap with
    | none => simp [h1, h2] at hseen
    | some r' =>
      simp only [h1, h2, Option.map_some, Option.some.injEq, Prod.mk.injEq] at hs ht hseen
      obtain ⟨hptr, hheap⟩ := hseen
      cases hs
      cases ht
      exact ⟨⟨hs', ht', hheap, by rw [hptr, h.live], h.added⟩, congrArg some hptr⟩

end HeapState.Agree

/-! ### Users -/

/-- What users do. They name an allocation by the number of the request it came from. -/
inductive UserOp where
  /-- `memheap_add_block` on a region. -/
  | add (r : Region)
  /-- `memheap_alloc`. -/
  | alloc (size : UInt32)
  /-- `memheap_free` of what request `i` returned. -/
  | free (i : ℕ)
  /-- A user writes a byte. -/
  | write (a : UInt32) (v : UInt8)

/-- The heap, and what each request has returned, `none` for `NULL`. -/
structure UserState where
  /-- The heap. -/
  state : HeapState
  /-- What was returned, in the order of the requests. -/
  returned : List (Option UInt32)

namespace UserState

/-- Nothing has happened yet. -/
def init (m : Mem) : UserState := ⟨HeapState.init m, []⟩

/-- One operation. -/
def step (s : UserState) : UserOp → Option UserState
  | .add r => (heapMachine.step s.state (.add r)).map fun t => { s with state := t }
  | .alloc size =>
    let p := (memheapAlloc s.state.mem size s.state.heap).map Prod.fst
    (heapMachine.step s.state (.alloc size)).map fun t => ⟨t, s.returned ++ [p]⟩
  | .free i =>
    match s.returned[i]? with
    | some (some p) => (heapMachine.step s.state (.free p)).map fun t => { s with state := t }
    | _ => none
  | .write a v => (heapMachine.step s.state (.write a v)).map fun t => { s with state := t }

end UserState

/-- The heap and its users. -/
def userMachine : Machine UserState UserOp := ⟨UserState.step⟩

/-- The calls, and what they are given. What users write is not one. -/
def UserOp.call : UserOp → Option UserOp
  | .write _ _ => none
  | op => some op

/-- What can be seen of the heap: what has been returned so far, and the `used` of every superblock. -/
structure Seen where
  /-- What was returned. -/
  returned : List (Option UInt32)
  /-- The counters, from `head` on. -/
  used : List UInt32

/-- What can be seen of a state. -/
def UserState.seen (s : UserState) : Seen := ⟨s.returned, s.state.heap.map Memblock.used⟩

/-- What can be seen after a call. -/
def observe (s : UserState) : UserOp → List Seen
  | .write _ _ => []
  | op => ((s.step op).map UserState.seen).toList

/-- The two states look the same to users. -/
def UserState.Agree (s t : UserState) : Prop := s.state.Agree t.state ∧ s.returned = t.returned

namespace UserState.Agree

variable {s s' t t' : UserState}

theorem seen (h : s.Agree t) : s.seen = t.seen := by
  rw [UserState.seen, UserState.seen, h.1.heap, h.2]

theorem symm (h : s.Agree t) : t.Agree s := ⟨h.1.symm, h.2.symm⟩

theorem write (h : s.Agree t) {op : UserOp} (hop : op.call = none) (hs : userMachine.step s op = some s') :
    s'.Agree t := by
  cases op with
  | write a v =>
    obtain ⟨w, hw, rfl⟩ := Option.map_eq_some_iff.mp hs
    exact ⟨h.1.write hw, h.2⟩
  | add r => cases hop
  | alloc size => cases hop
  | free i => cases hop

/-- A call in both runs. -/
theorem call (h : s.Agree t) {op op' l : UserOp} (hop : op.call = some l) (hop' : op'.call = some l)
    (hs : userMachine.step s op = some s') (ht : userMachine.step t op' = some t') : s'.Agree t' ∧ op = op' := by
  have hsame : ∀ o : UserOp, o.call = some l → o = l := by
    intro o ho
    cases o with
    | write a v => cases ho
    | add r => exact Option.some.inj ho
    | alloc size => exact Option.some.inj ho
    | free i => exact Option.some.inj ho
  obtain rfl := hsame op hop
  obtain rfl := hsame op' hop'
  refine ⟨?_, rfl⟩
  cases op' with
  | write a v => cases hop
  | add r =>
    obtain ⟨w, hw, rfl⟩ := Option.map_eq_some_iff.mp hs
    obtain ⟨w', hw', rfl⟩ := Option.map_eq_some_iff.mp ht
    exact ⟨h.1.add hw hw', h.2⟩
  | alloc size =>
    obtain ⟨w, hw, rfl⟩ := Option.map_eq_some_iff.mp hs
    obtain ⟨w', hw', rfl⟩ := Option.map_eq_some_iff.mp ht
    obtain ⟨hagree, hptr⟩ := h.1.alloc hw hw'
    exact ⟨hagree, by rw [h.2, hptr]⟩
  | free i =>
    simp only [userMachine, UserState.step, h.2] at hs ht
    split at hs
    · next p hp =>
      simp only [hp] at ht
      obtain ⟨w, hw, rfl⟩ := Option.map_eq_some_iff.mp hs
      obtain ⟨w', hw', rfl⟩ := Option.map_eq_some_iff.mp ht
      exact ⟨h.1.free hw hw', rfl⟩
    · cases hs

end UserState.Agree

/-- **Noninterference**: two runs of the same calls, in any two memories and with any writes by the users
of each, return the same pointers and have the same counters after each call. -/
theorem noninterference {m m' : Mem} {ops ops' : List UserOp} {s t : UserState}
    (hs : userMachine.run (UserState.init m) ops = some s) (ht : userMachine.run (UserState.init m') ops' = some t)
    (hcalls : ops.filterMap UserOp.call = ops'.filterMap UserOp.call) :
    userMachine.trace observe (UserState.init m) ops = userMachine.trace observe (UserState.init m') ops' := by
  have hinit : (UserState.init m).Agree (UserState.init m') := ⟨⟨init_inv m, init_inv m', rfl, rfl, rfl⟩, rfl⟩
  refine (userMachine.two_runs (R := UserState.Agree) ?_ ?_ ?_ ?_ hinit hs ht hcalls).2
  · intro s op hop
    cases op with
    | write a v => rfl
    | add r => cases hop
    | alloc size => cases hop
    | free i => cases hop
  · exact fun s s' t op h hop hstep => h.write hop hstep
  · exact fun s t t' op h hop hstep => (h.symm.write hop hstep).symm
  · intro s s' t t' op op' l h hop hop' hstep hstep'
    obtain ⟨hagree, rfl⟩ := h.call hop hop' hstep hstep'
    refine ⟨hagree, ?_⟩
    have hobserve : ∀ {u u' : UserState}, userMachine.step u op = some u' → observe u op = [u'.seen] := by
      intro u u' hu
      have hu' : u.step op = some u' := hu
      cases op with
      | write a v => cases hop
      | add r => simp only [observe, hu', Option.map_some, Option.toList_some]
      | alloc size => simp only [observe, hu', Option.map_some, Option.toList_some]
      | free i => simp only [observe, hu', Option.map_some, Option.toList_some]
    rw [hobserve hstep, hobserve hstep', hagree.seen]

/-- Four blocks of 16 bytes, allocated, written, freed and allocated again. -/
def sampleCalls (v : UInt8) : List UserOp :=
  [.add smallRegion, .alloc 16, .alloc 20, .write 0x1024 v, .free 0, .alloc 40, .alloc 9]

theorem noninterference_sample :
    userMachine.trace observe (UserState.init fun _ => 0) (sampleCalls 1) =
      userMachine.trace observe (UserState.init fun _ => 0xFF) (sampleCalls 2) := by
  have hs : (userMachine.run (UserState.init fun _ => 0) (sampleCalls 1)).isSome := by
    decide +kernel
  have ht : (userMachine.run (UserState.init fun _ => 0xFF) (sampleCalls 2)).isSome := by
    decide +kernel
  obtain ⟨s, hs⟩ := Option.isSome_iff_exists.mp hs
  obtain ⟨t, ht⟩ := Option.isSome_iff_exists.mp ht
  exact noninterference hs ht rfl

end MoltarOS.Mm
