import MoltarOS.Mm.HeapRuns

/-!
# Runs of the heap, up to the end of the address space

The runs of `HeapRuns`, but that a region may end where the addresses do. `memheap_free` takes no pointer for one of the
superblock of such a region: what is freed there stays in use, so that a bitmap may encode allocations that are no
longer live.

## What is proved

* `wideInv_of_run` — the bitmaps encode the live allocations, and what was freed without effect.
* `wide_of_run` — the runs of `HeapRuns` are among these.
-/

namespace MoltarOS.Mm

open MoltarOS.Lib MoltarOS.Lib.Word MoltarOS.Libc

/-- What `memheap_add_block` is given, without a gap. -/
abbrev WideRegion := Region 0

/-- The memory, the heap, and what has been asked of it. -/
abbrev WideState := HeapState 0

/-- What can happen to a heap. -/
abbrev WideOp := HeapOp 0

/-- The heap as a machine. -/
abbrev wideMachine : Machine WideState WideOp := heapMachine

/-- **The invariant**: the bitmaps encode the live allocations, and perhaps more. -/
def HeapState.WideInv (s : WideState) : Prop :=
  ∃ held, Superblocks (s.added.map Region.superblock) s.mem s.heap held ∧ ∀ x ∈ s.live, x ∈ held

/-! ### Runs -/

theorem wideInv_step {s t : WideState} {op : WideOp} (h : s.WideInv) (hs : wideMachine.step s op = some t) :
    t.WideInv := by
  obtain ⟨held, hheld, hlive⟩ := h
  cases op with
  | add r =>
    simp only [heapMachine, HeapState.step] at hs
    split_ifs at hs with hr
    obtain rfl := Option.some.inj hs
    refine ⟨held, hheld.addBlock r.wf fun c hc => ?_, hlive⟩
    obtain ⟨t, ht, rfl⟩ := List.mem_map.mp hc
    exact (hr t ht).superblock
  | alloc size =>
    simp only [heapMachine, HeapState.step] at hs
    split_ifs at hs with hsize
    split at hs
    · next p m heap ha =>
      obtain rfl := Option.some.inj hs
      refine ⟨⟨p, size⟩ :: held, hheld.alloc hsize ha, List.forall_mem_cons.mpr ⟨List.mem_cons_self, fun x hx => ?_⟩⟩
      exact List.mem_cons_of_mem _ (hlive x hx)
    · obtain rfl := Option.some.inj hs
      exact ⟨held, hheld, hlive⟩
  | free p =>
    simp only [heapMachine, HeapState.step] at hs
    split_ifs at hs with hp
    obtain rfl := Option.some.inj hs
    obtain ⟨x, hx, rfl⟩ := hp
    obtain ⟨held', hheld', hkeep⟩ := hheld.free_any (hlive x hx)
    refine ⟨held', hheld', fun y hy => ?_⟩
    obtain ⟨hy, hne⟩ := List.mem_filter.mp hy
    exact hkeep y (hlive y hy) (of_decide_eq_true hne)
  | write a v =>
    simp only [heapMachine, HeapState.step] at hs
    split_ifs at hs with ha
    obtain rfl := Option.some.inj hs
    obtain ⟨x, hx, hxa⟩ := ha
    exact ⟨held, hheld.write (hlive x hx) hxa v, hlive⟩

theorem wideInv_init (m : Mem) : HeapState.WideInv (HeapState.init m) :=
  ⟨[], Superblocks.empty m, by simp [HeapState.init]⟩

/-- **The invariant holds in every state of every run.** -/
theorem wideInv_of_run {m : Mem} {ops : List WideOp} {s : WideState}
    (h : wideMachine.run (HeapState.init m) ops = some s) :
    s.WideInv :=
  wideMachine.invariant (fun _ _ _ => wideInv_step) (wideInv_init m) h

/-! ### Regions that end below the top -/

/-- A region whose end is an address. -/
def Region.wide (r : Region) : WideRegion :=
  ⟨r.addr, r.size, r.blockSize, r.blockPos, r.room, Nat.le_of_add_right_le r.fits⟩

/-- The same operation. -/
def HeapOp.wide : HeapOp → WideOp
  | .add r => .add r.wide
  | .alloc size => .alloc size
  | .free p => .free p
  | .write a v => .write a v

/-- The same state. -/
def HeapState.wide (s : HeapState) : WideState := ⟨s.mem, s.heap, s.live, s.added.map Region.wide⟩

theorem wide_step {s t : HeapState} {op : HeapOp} (h : heapMachine.step s op = some t) :
    wideMachine.step s.wide op.wide = some t.wide := by
  cases op with
  | add r =>
    simp only [heapMachine, HeapState.step] at h
    split_ifs at h with hr
    obtain rfl := Option.some.inj h
    have hr' : ∀ t ∈ s.added.map Region.wide, r.wide.Apart t := List.forall_mem_map.mpr hr
    exact if_pos hr'
  | alloc size =>
    simp only [heapMachine, HeapState.step] at h
    split_ifs at h with hsize
    simp only [HeapState.wide, HeapOp.wide, heapMachine, HeapState.step, if_pos hsize]
    cases ha : memheapAlloc s.mem size s.heap with
    | none =>
      rw [ha] at h
      obtain rfl := Option.some.inj h
      rfl
    | some r =>
      rw [ha] at h
      obtain rfl := Option.some.inj h
      rfl
  | free p =>
    simp only [heapMachine, HeapState.step] at h
    split_ifs at h with hp
    obtain rfl := Option.some.inj h
    exact if_pos hp
  | write a v =>
    simp only [heapMachine, HeapState.step] at h
    split_ifs at h with ha
    obtain rfl := Option.some.inj h
    exact if_pos ha

/-- **The runs of `HeapRuns` are runs here.** -/
theorem wide_of_run {m : Mem} {ops : List HeapOp} {s : HeapState}
    (h : heapMachine.run (HeapState.init m) ops = some s) :
    wideMachine.run (HeapState.init m) (ops.map HeapOp.wide) = some s.wide :=
  heapMachine.refines (I := fun _ => True) (f := HeapState.wide) (fun _ _ _ _ _ => trivial)
    (fun _ _ _ _ => wide_step) trivial h

end MoltarOS.Mm
