import Mathlib.Data.List.Perm.Subperm
import MoltarOS.Sched.RoundRobin
import MoltarOS.Sched.TaskMem

/-!
# The scheduler in memory is the scheduler

`Rep` relates a memory to the list and the structures of the tasks: the links are the list, and the fields of each
block hold its task, from the `memset` of `task_new` on.

## What is proved

* `Rep.store`, `Rep.memset`, `Rep.insertAfter`, `Rep.write` — what the scheduler writes, and what other code may, in
  terms of `Rep`.
* `stepAct_rep` — each step in memory is a step of the scheduler.
* `memMachine_refines` — so a run in memory is a run of the scheduler, and the tasks are in memory.
-/

namespace MoltarOS.Sched

open MoltarOS.Lib MoltarOS.Lib.Word MoltarOS.Lib.Mem
open MoltarOS.Mm (PAGE_SIZE)

variable {head : UInt32} {blocks : List TaskRef} {m m' : Mem} {t u : ℕ} {f : Field} {v : UInt32}

/-! ### Words of blocks -/

theorem Field.offset_apart {f g : Field} (h : f ≠ g) : WordsApart f.offset g.offset := by
  cases f <;> cases g <;> first | exact absurd rfl h | decide

theorem Separate.fits (h : Separate head blocks) (ht : t ∈ blocks) :
    0 < t ∧ t + taskSize ≤ 2 ^ 32 ∧ (head.toNat + 4 ≤ t ∨ t + taskSize ≤ head.toNat) := h.1 t ht

theorem Separate.away (h : Separate head blocks) (ht : t ∈ blocks) (hu : u ∈ blocks) (hne : t ≠ u) :
    t + taskSize ≤ u ∨ u + taskSize ≤ t := h.2.1 t ht u hu hne

theorem addr_toNat (h : Separate head blocks) (ht : t ∈ blocks) : (addr t).toNat = t := by
  obtain ⟨-, htop, -⟩ := h.fits ht
  exact toNat_ofNat_of_lt (by rw [taskSize] at htop; omega)

theorem addr_add_toNat (h : Separate head blocks) (ht : t ∈ blocks) {k : UInt32} (hk : k.toNat + 4 ≤ taskSize) :
    (addr t + k).toNat = t + k.toNat := by
  obtain ⟨-, htop, -⟩ := h.fits ht
  rw [toNat_add_of_lt (by rw [addr_toNat h ht]; omega), addr_toNat h ht]

theorem addr_ne_zero (h : Separate head blocks) (ht : t ∈ blocks) : addr t ≠ 0 := by
  intro he
  have hzero := addr_toNat h ht
  rw [he] at hzero
  exact absurd hzero (Nat.ne_of_lt (h.fits ht).1)

/-- Words of two blocks. -/
theorem Separate.apart (h : Separate head blocks) (ht : t ∈ blocks) (hu : u ∈ blocks) (hne : t ≠ u) {j k : UInt32}
    (hj : j.toNat + 4 ≤ taskSize) (hk : k.toNat + 4 ≤ taskSize) : WordsApart (addr t + j) (addr u + k) := by
  have htj := addr_add_toNat h ht hj
  have huk := addr_add_toNat h hu hk
  have htop := (h.fits ht).2.1
  have htop' := (h.fits hu).2.1
  rcases h.away ht hu hne with hlt | hlt
  · exact wordsApart_of_le (by omega) (by omega)
  · exact (wordsApart_of_le (by omega) (by omega)).symm

/-- `tasks`, and a word of a block. -/
theorem Separate.apart_head (h : Separate head blocks) (ht : t ∈ blocks) {k : UInt32} (hk : k.toNat + 4 ≤ taskSize) :
    WordsApart (addr t + k) head := by
  have htk := addr_add_toNat h ht hk
  obtain ⟨-, htop, hhead⟩ := h.fits ht
  have htop' := h.2.2
  rcases hhead with hlt | hlt
  · exact (wordsApart_of_le (by omega) (by omega)).symm
  · exact wordsApart_of_le (by omega) (by omega)

/-! ### The words of the list -/

/-- The link of a task, as the list counts it. -/
theorem nextTask_prev (t : TaskRef) : addr t + nextTask + 4 = addr t + 28 := by
  rw [UInt32.add_assoc]
  rfl

/-- The words of the list are `tasks` and the links of its tasks. -/
theorem mem_cells_tasks {tasks : List TaskRef} {x : UInt32} (hx : x ∈ cells nextTask head (tasks.map addr)) :
    x = head ∨ ∃ u ∈ tasks, x = addr u + 24 ∨ x = addr u + 28 := by
  refine (mem_cells.mp hx).imp_right ?_
  rintro ⟨e, he, hx⟩
  obtain ⟨u, hu, rfl⟩ := List.mem_map.mp he
  rw [nextTask_prev] at hx
  exact ⟨u, hu, hx⟩

/-- A word of a block that is not in the list, or a field of one that is. -/
theorem Separate.apart_cells (h : Separate head blocks) {tasks : List TaskRef} (hsub : tasks ⊆ blocks)
    (ht : t ∈ blocks) {k : UInt32}
    (hk : k.toNat + 4 ≤ taskSize) (hout : t ∉ tasks ∨ WordsApart k 24 ∧ WordsApart k 28) {x : UInt32}
    (hx : x ∈ cells nextTask head (tasks.map addr)) : WordsApart (addr t + k) x := by
  rcases mem_cells_tasks hx with rfl | ⟨u, hu, hx⟩
  · exact h.apart_head ht hk
  · by_cases htu : t = u
    · obtain ⟨hnext, hprev⟩ := hout.resolve_left fun hmem => hmem (htu ▸ hu)
      rcases hx with rfl | rfl
      · exact htu ▸ wordsApart_add _ hnext
      · exact htu ▸ wordsApart_add _ hprev
    · rcases hx with rfl | rfl
      · exact h.apart ht (hsub hu) htu hk (by decide)
      · exact h.apart ht (hsub hu) htu hk (by decide)

theorem Field.offset_apart_links (f : Field) : WordsApart f.offset 24 ∧ WordsApart f.offset 28 := by
  cases f <;> decide

theorem Field.offset_le (f : Field) : f.offset.toNat + 4 ≤ taskSize := by
  cases f <;> decide

/-! ### Tasks -/

theorem readTask_get (m : Mem) (t : TaskRef) (f : Field) : f.get (readTask m t) = loadField m t f := by
  cases f <;> rfl

/-- A task is its fields. -/
theorem task_ext {x y : Task} (h : ∀ f : Field, f.get x = f.get y) : x = y := by
  obtain ⟨_, _, _, _, _, _⟩ := x
  obtain ⟨_, _, _, _, _, _⟩ := y
  simp only [Task.mk.injEq]
  exact ⟨h .eip, h .esp, h .ebp, h .stackStart, h .id, h .ticks⟩

theorem Field.get_set (f g : Field) (v : UInt32) (x : Task) : g.get (f.set v x) = if f = g then v else g.get x := by
  cases f <;> cases g <;> rfl

theorem readTask_congr (h : ∀ f : Field, loadField m' t f = loadField m t f) : readTask m' t = readTask m t :=
  task_ext fun f => by rw [readTask_get, readTask_get, h f]

theorem readTask_storeField (m : Mem) (t : TaskRef) (f : Field) (v : UInt32) :
    readTask (storeField m t f v) t = f.set v (readTask m t) := by
  refine task_ext fun g => ?_
  rw [readTask_get, Field.get_set, loadField, storeField]
  split_ifs with hfg
  · rw [hfg, load32_store32]
  · rw [readTask_get, load32_store32_apart m (wordsApart_add _ (Field.offset_apart hfg)), loadField]

theorem readTask_storeField_of_ne (h : Separate head blocks) (ht : t ∈ blocks) (hu : u ∈ blocks) (hne : t ≠ u) :
    readTask (storeField m t f v) u = readTask m u :=
  readTask_congr fun g => load32_store32_apart m (h.apart ht hu hne f.offset_le g.offset_le) v

/-- The fields of a task are not among the links. -/
theorem Separate.readTask_congr (h : Separate head blocks) {tasks : List TaskRef} (hsub : tasks ⊆ blocks)
    (ht : t ∈ blocks)
    (hframe : ∀ x, (∀ y ∈ cells nextTask head (tasks.map addr), WordsApart x y) → m'.load32 x = m.load32 x) :
    readTask m' t = readTask m t :=
  MoltarOS.Sched.readTask_congr fun f => hframe _ fun _ hy =>
    h.apart_cells hsub ht f.offset_le (.inr f.offset_apart_links) hy

/-- The links of a block that is not in the list. -/
theorem Separate.fresh (h : Separate head blocks) {tasks : List TaskRef} (hsub : tasks ⊆ blocks) (ht : t ∈ blocks)
    (hout : t ∉ tasks) :
    Fresh nextTask head (addr t) (tasks.map addr) := by
  refine ⟨addr_ne_zero h ht, ?_, fun x hx => ⟨?_, ?_⟩⟩
  · rw [nextTask_prev]
    exact wordsApart_add _ (by decide)
  · exact h.apart_cells hsub ht (by decide) (.inl hout) hx
  · rw [nextTask_prev]
    exact h.apart_cells hsub ht (by decide) (.inl hout) hx

/-! ### Children in the making -/

/-- The child that a statement makes. -/
def Instr.making : Instr → Option TaskRef
  | .memset child | .readParent child | .setId child _ | .allocBlock child _ | .setStackStart child _
  | .insertAfter _ child => some child
  | _ => none

/-- The child that is not in the list yet. -/
def Stage.making : Stage → Option TaskRef
  | .building child | .staged child _ | .stacked child => some child
  | _ => none

/-- The statements that make a child. -/
def makings (stack : Stack) : List Instr := stack.flatten.filter (·.making.isSome)

theorem mem_makings {i : Instr} {stack : Stack} : i ∈ makings stack ↔ (∃ f ∈ stack, i ∈ f) ∧ i.making.isSome := by
  rw [makings, List.mem_filter, List.mem_flatten]

theorem mem_makings_cons_cons {i j : Instr} {rest : Frame} {lower : Stack} :
    j ∈ makings ((i :: rest) :: lower) ↔ (j = i ∧ j.making.isSome) ∨ j ∈ makings (rest :: lower) := by
  simp only [mem_makings, List.mem_cons, exists_eq_or_imp]
  tauto

theorem mem_makings_append {j : Instr} {g rest : Frame} {lower : Stack} :
    j ∈ makings ((g ++ rest) :: lower) ↔ (j ∈ g ∧ j.making.isSome) ∨ j ∈ makings (rest :: lower) := by
  simp only [mem_makings, List.mem_cons, List.mem_append, exists_eq_or_imp]
  tauto

theorem makings_lower (f : Frame) (lower : Stack) : makings lower ⊆ makings (f :: lower) := fun j hj => by
  obtain ⟨⟨g, hg, hjg⟩, hsome⟩ := mem_makings.mp hj
  exact mem_makings.mpr ⟨⟨g, List.mem_cons_of_mem f hg, hjg⟩, hsome⟩

/-- The children of the frames of the code. -/
theorem making_taskNewRest {child u : TaskRef} {grown : Bool} {j : Instr} (hj : j ∈ taskNewRest child grown)
    (hu : u ∈ j.making) :
    u = child := by
  cases grown <;> simp only [taskNewRest, List.mem_append, List.mem_cons, List.not_mem_nil, or_false, if_true,
    Bool.false_eq_true, if_false, false_or] at hj <;> rcases hj with rfl | rfl | rfl | rfl <;> cases hu <;> rfl

theorem making_threadCreateRest {child parent u : TaskRef} {j : Instr} (hj : j ∈ threadCreateRest child parent)
    (hu : u ∈ j.making) :
    u = child := by
  simp only [threadCreateRest, List.mem_cons, List.not_mem_nil, or_false] at hj
  rcases hj with rfl | rfl | rfl | rfl | rfl | rfl | rfl | rfl <;> cases hu <;> rfl

theorem making_copyStackRest {child u : TaskRef} {newStack : UInt32} {n : ℕ} {j : Instr}
    (hj : j ∈ copyStackRest child newStack n) (hu : u ∈ j.making) : u = child := by
  simp only [copyStackRest, List.mem_append, List.mem_cons, List.not_mem_nil, or_false, List.mem_replicate] at hj
  -- of these statements only the last one has a child
  rcases hj with ((rfl | rfl) | ⟨-, rfl⟩) | rfl | rfl <;> cases hu
  rfl

section

variable {o : TaskRef} {k : Kind} {σ ρ τ : Stage} {i : Instr}

theorem Moves.making {c : TaskRef} (h : Moves o k i σ ρ) (hc : i.making = some c ∨ ρ.making = some c) :
    σ.making = some c := by
  cases h <;> simp_all [Instr.making, Stage.making]

/-- A child is cleared before anything else is done with it. -/
theorem Moves.of_memset {c : TaskRef} (h : Moves o k i σ ρ) (hc : i = .memset c ∨ ρ = .building c) :
    σ = .building c := by
  cases h <;> simp_all

variable {Q : Instr → Prop} {P : Stage → Prop}

/-- What a statement of a kind says of the stage before it, and a stage after a statement of the one before. -/
theorem Typed.mem {g : Frame} (hmoves : ∀ i σ ρ, Moves o k i σ ρ → Q i ∨ P ρ → P σ) (h : Typed o k σ g) (hi : i ∈ g)
    (hQ : Q i) : P σ := by
  induction g generalizing σ with
  | nil => cases hi
  | cons j g ih =>
    obtain ⟨ρ, hj, hg⟩ := typed_cons.mp h
    rcases List.mem_cons.mp hi with rfl | hi
    · exact hmoves _ _ _ hj (.inl hQ)
    · exact hmoves _ _ _ hj (.inr (ih hg hi))

/-- Below the top nothing is pending, so a statement of such a kind is in the top frame. -/
theorem StackOk.mem {stack : Stack} (hmoves : ∀ k i σ ρ, Moves o k i σ ρ → Q i ∨ P ρ → P σ) (hfree : ¬ P .free)
    (h : StackOk o k σ stack) {g : Frame} (hg : g ∈ stack) (hi : i ∈ g) (hQ : Q i) : P σ := by
  induction stack generalizing k σ with
  | nil => cases hg
  | cons f lower ih =>
    obtain ⟨hf, hbelow⟩ := stackOk_cons.mp h
    rcases List.mem_cons.mp hg with rfl | hg
    · exact hf.mem (hmoves k) hi hQ
    · obtain ⟨k', hlower⟩ := hbelow.stackOk
      exact absurd (ih hlower hg) hfree

theorem StackOk.making {stack : Stack} {c : TaskRef} (h : StackOk o k σ stack) (hi : i ∈ makings stack)
    (hc : i.making = some c) :
    σ.making = some c := by
  obtain ⟨⟨g, hg, hig⟩, -⟩ := mem_makings.mp hi
  exact h.mem (Q := fun i => i.making = some c) (P := fun σ => σ.making = some c) (fun _ _ _ _ hm => hm.making)
    nofun hg hig hc

theorem StackOk.memset {stack : Stack} {c : TaskRef} (h : StackOk o k σ stack) (hi : .memset c ∈ makings stack) :
    σ = .building c := by
  obtain ⟨⟨g, hg, hig⟩, -⟩ := mem_makings.mp hi
  exact h.mem (Q := (· = .memset c)) (P := (· = .building c)) (fun _ _ _ _ hm => hm.of_memset) nofun hg hig rfl

/-- Where nothing is pending, no child is in the making. -/
theorem StackOk.makings_eq_nil {stack : Stack} (h : StackOk o k σ stack) (hσ : σ.making = none) :
    makings stack = [] := by
  refine List.eq_nil_iff_forall_not_mem.mpr fun i hi => ?_
  obtain ⟨c, hc⟩ := Option.isSome_iff_exists.mp (mem_makings.mp hi).2
  cases hσ.symm.trans (h.making hi hc)

end

/-- A child in the making is not in the list. -/
theorem State.Holds.not_mem {s : State} {σ : Stage} {c : TaskRef} (h : s.Holds σ) (hc : σ.making = some c) :
    c ∉ s.tasks := by
  cases σ with
  | building child | staged child p | stacked child =>
    obtain rfl : child = c := Option.some.inj hc
    first | exact h.2 | exact h.2.1
  | free | masked | linked child | filling child ctx n | swap ctx n => cases hc

/-! ### The relation -/

namespace MemState

/-- The state of the scheduler with the given list and tasks. -/
def view (c : MemState) (tasks : List TaskRef) (task : TaskRef → Task) : State :=
  ⟨c.flag, c.stack, c.owner, tasks, c.current, task, c.image, c.stored⟩

end MemState

/-- The tasks and their list are in memory. -/
structure Rep (head : UInt32) (c : MemState) (tasks : List TaskRef) (task : TaskRef → Task) : Prop where
  /-- The blocks are apart. -/
  separate : Separate head c.blocks
  /-- Those of the tasks among them. -/
  sub : tasks ⊆ c.blocks
  /-- The children in the making have theirs. -/
  making : ∀ i ∈ makings c.stack, ∀ t ∈ i.making, t ∈ c.blocks
  /-- Each block has its task, unless it is still to be cleared. -/
  task : ∀ t ∈ c.blocks, .memset t ∉ makings c.stack → readTask c.mem t = task t
  /-- The links are the list. -/
  list : IsList c.mem nextTask head (tasks.map addr)

namespace Rep

variable {c c' : MemState} {tasks : List TaskRef} {task : TaskRef → Task} {i : Instr} {rest : Frame} {lower : Stack}

/-! ### Control -/

/-- The CPU goes on with other statements. -/
theorem control (h : Rep head c tasks task) (hmem : c'.mem = c.mem) (hblocks : c'.blocks = c.blocks)
    (hmaking : ∀ i ∈ makings c'.stack, ∀ t ∈ i.making, t ∈ c.blocks)
    (hmemset : ∀ t, .memset t ∈ makings c.stack → .memset t ∈ makings c'.stack) : Rep head c' tasks task := by
  refine ⟨hblocks ▸ h.separate, hblocks ▸ h.sub, hblocks ▸ hmaking, fun t ht hclear => ?_, hmem ▸ h.list⟩
  rw [hmem]
  exact h.task t (hblocks ▸ ht) fun hold => hclear (hmemset t hold)

/-- No child is concerned. -/
theorem same (h : Rep head c tasks task) (hmem : c'.mem = c.mem) (hblocks : c'.blocks = c.blocks)
    (heq : makings c'.stack = makings c.stack) : Rep head c' tasks task :=
  h.control hmem hblocks (heq ▸ h.making) fun _ ht => heq ▸ ht

/-- A statement is left behind. -/
theorem pop (h : Rep head c tasks task) (hstack : c.stack = (i :: rest) :: lower) (hi : ∀ t, i ≠ .memset t) :
    Rep head (c.goto (rest :: lower)) tasks task := by
  refine h.control rfl rfl (fun j hj => h.making j ?_) fun t ht => ?_
  · rw [hstack]
    exact mem_makings_cons_cons.mpr (.inr hj)
  · rw [hstack] at ht
    exact (mem_makings_cons_cons.mp ht).resolve_left fun he => hi t he.1.symm

/-- Code is put before the frame. -/
theorem enter (h : Rep head c tasks task) (hstack : c.stack = (i :: rest) :: lower)
    (hi : ∀ t, i ≠ .memset t) {g : Frame}
    (hg : ∀ j ∈ g, ∀ u ∈ j.making, u ∈ c.blocks) : Rep head (c.goto ((g ++ rest) :: lower)) tasks task := by
  refine (h.pop hstack hi).control rfl rfl (fun j hj u hu => ?_) fun u hu => mem_makings_append.mpr (.inr hu)
  rcases mem_makings_append.mp hj with hnew | hold
  · exact hg j hnew.1 u hu
  · exact (h.pop hstack hi).making j hold u hu

/-! ### What is read -/

/-- The tasks in the list. -/
theorem read (h : Rep head c tasks task) (hinv : (c.view tasks task).Inv) (ht : t ∈ tasks) :
    readTask c.mem t = task t := by
  refine h.task t (h.sub ht) fun hmem => ?_
  obtain ⟨-, k, σ, hok, hσ⟩ := hinv
  exact hσ.not_mem (hok.making hmem rfl) ht

theorem load (h : Rep head c tasks task) (hinv : (c.view tasks task).Inv) (ht : t ∈ tasks) (f : Field) :
    loadField c.mem t f = f.get (task t) := by
  rw [← readTask_get, h.read hinv ht]

/-- The list is walked through. -/
theorem foreach (h : Rep head c tasks task) (hd : (c.view tasks task).Data) :
    LIST_FOREACH c.mem head nextTask (c.blocks.length + 1) = tasks.map addr := by
  have hlength : tasks.length ≤ c.blocks.length := (List.Nodup.subperm hd.nodup h.sub).length_le
  exact LIST_FOREACH_eq h.list (by rw [List.length_map]; omega)

/-- The task after `current`. -/
theorem successor (h : Rep head c tasks task) (hd : (c.view tasks task).Data) :
    c.successor head = (c.view tasks task).successor := by
  obtain ⟨pre, post, hsplit, hpre⟩ := hd.split
  rw [State.successor_eq hsplit hpre]
  have hmap : tasks.map addr = pre.map addr ++ addr c.current :: post.map addr := by
    rw [show tasks = pre ++ c.current :: post from hsplit, List.map_append, List.map_cons]
  have hlist := h.list.chain
  have hnext : LIST_NEXT c.mem (addr c.current) nextTask = (post.map addr).headD 0 := (hmap ▸ hlist).next
  have hfirst : LIST_FIRST c.mem head = (tasks.map addr).headD 0 := hlist.first
  have hblock : ∀ u ∈ tasks, addr u ≠ 0 ∧ (addr u).toNat = u := fun u hu =>
    ⟨addr_ne_zero h.separate (h.sub hu), addr_toNat h.separate (h.sub hu)⟩
  rw [show tasks = pre ++ c.current :: post from hsplit] at hfirst hblock
  rw [MemState.successor, hnext, hfirst]
  cases post with
  | cons u post =>
    obtain ⟨hne, hu⟩ := hblock u (by simp)
    simp [hne, hu]
  | nil =>
    cases pre with
    | nil => simp [(hblock c.current (by simp)).2, MemState.view]
    | cons u pre => simp [(hblock u (by simp)).2]

/-! ### What is written -/

/-- A field of a task. -/
theorem store (h : Rep head c tasks task) (ht : t ∈ c.blocks) (f : Field) (v : UInt32) :
    Rep head (c.store t f v) tasks (Function.update task t (f.set v (task t))) where
  separate := h.separate
  sub := h.sub
  making := h.making
  task u hu hclear := by
    by_cases hut : u = t
    · subst hut
      rw [Function.update_self, ← h.task u hu hclear]
      exact readTask_storeField c.mem u f v
    · rw [Function.update_of_ne hut, ← h.task u hu hclear]
      exact readTask_storeField_of_ne h.separate ht hu (Ne.symm hut)
  list := h.list.congr fun x hx =>
    load32_store32_apart c.mem (h.separate.apart_cells h.sub ht f.offset_le (.inr f.offset_apart_links) hx) v

/-- The whole of a task that is not in the list. -/
theorem clear (h : Rep head c tasks task) (hstack : c.stack = (.memset t :: rest) :: lower) (ht : t ∉ tasks) :
    Rep head { c.goto (rest :: lower) with mem := Libc.memset c.mem (addr t) 0 (UInt32.ofNat taskSize) } tasks
      (Function.update task t ⟨0, 0, 0, 0, 0, 0⟩) := by
  have hold : ∀ j, j ∈ makings c.stack ↔ (j = .memset t ∧ j.making.isSome) ∨ j ∈ makings (rest :: lower) := fun j => by
    rw [hstack, mem_makings_cons_cons]
  have hblock : t ∈ c.blocks := h.making (.memset t) ((hold _).mpr (.inl ⟨rfl, rfl⟩)) t rfl
  refine ⟨h.separate, h.sub, fun j hj => h.making j ((hold j).mpr (.inr hj)), fun u hu hclear => ?_,
    h.list.congr fun x hx => ?_⟩
  · by_cases hut : u = t
    · subst hut
      rw [Function.update_self]
      refine task_ext fun f => ?_
      rw [readTask_get, loadField, Libc.load32_memset_zero c.mem (addr u) f.offset_le]
      cases f <;> rfl
    · have hne : Instr.memset u ≠ .memset t := fun he => hut (Instr.memset.inj he)
      rw [Function.update_of_ne hut, ← h.task u hu fun hmem =>
        hclear (((hold _).mp hmem).resolve_left fun he => hne he.1)]
      exact readTask_congr fun f => Libc.load32_memset_apart c.mem _ _ (by decide) fun k hk =>
        h.separate.apart hblock hu (Ne.symm hut) hk f.offset_le
  · exact Libc.load32_memset_apart c.mem _ _ (by decide) fun k hk => h.separate.apart_cells h.sub hblock hk (.inl ht) hx

/-- A task that is not in the list comes behind one that is. -/
theorem insertAfter (h : Rep head c tasks task) {p : TaskRef} (hp : p ∈ tasks) (ht : t ∈ c.blocks) (hout : t ∉ tasks) :
    Rep head { c with mem := LIST_INSERT_AFTER c.mem (addr p) (addr t) nextTask } (listInsertAfter tasks p t) task := by
  obtain ⟨pre, post, rfl, hpre⟩ := List.eq_append_cons_of_mem hp
  rw [State.listInsertAfter_eq hpre]
  have hfresh := h.separate.fresh h.sub ht hout
  have hlist := h.list
  have hsub : pre ++ p :: t :: post ⊆ c.blocks := fun u hu => by
    by_cases hut : u = t
    · exact hut ▸ ht
    · refine h.sub ?_
      simp only [List.mem_append, List.mem_cons] at hu ⊢
      tauto
  rw [List.map_append, List.map_cons] at hfresh hlist
  refine ⟨h.separate, hsub, h.making, fun u hu hclear => ?_, ?_⟩
  · rw [← h.task u hu hclear]
    refine h.separate.readTask_congr hsub hu fun x hx => load32_LIST_INSERT_AFTER hlist hfresh ?_
    rwa [List.map_append, List.map_cons, List.map_cons] at hx
  · rw [List.map_append, List.map_cons, List.map_cons]
    exact LIST_INSERT_AFTER_isList hlist hfresh

/-- Other code writes somewhere else. -/
theorem write (h : Rep head c tasks task) {a : UInt32} (ha : ¬ Owned head c.blocks a) (v : UInt8) :
    Rep head { c with mem := c.mem.set a v } tasks task := by
  rw [Owned, not_or, not_exists] at ha
  have hset : ∀ b, 4 ≤ Word.dist b a → (c.mem.set a v).load32 b = c.mem.load32 b := fun b hb =>
    load32_congr fun x hx => set_of_ne c.mem v fun he => by
      rw [he] at hx
      omega
  have hfield : ∀ u ∈ c.blocks, ∀ k : UInt32, k.toNat + 4 ≤ taskSize →
      (c.mem.set a v).load32 (addr u + k) = c.mem.load32 (addr u + k) := fun u hu k hk => hset _ <| by
    -- else it would be in the block
    by_contra hlt
    refine ha.2 u ⟨hu, ?_⟩
    have hdist := dist_eq_add (a := addr u) (b := a) (k := k.toNat) (by rw [UInt32.ofNat_toNat, taskSize] at *; omega)
    rw [UInt32.ofNat_toNat] at hdist
    omega
  refine ⟨h.separate, h.sub, h.making, fun u hu hclear => ?_, h.list.congr fun x hx => ?_⟩
  · rw [← h.task u hu hclear]
    exact readTask_congr fun f => hfield u hu _ f.offset_le
  · rcases mem_cells_tasks hx with rfl | ⟨u, hu, rfl | rfl⟩
    · exact hset _ (not_lt.mp ha.1)
    · exact hfield u (h.sub hu) 24 (by decide)
    · exact hfield u (h.sub hu) 28 (by decide)

/-- `kmalloc` returns another block. -/
theorem kmalloc (h : Rep head c tasks task) {child : TaskRef} {grown : Bool}
    (hstack : c.stack = (.taskNew :: rest) :: lower) (hsep : Separate head (child :: c.blocks)) :
    Rep head { c.goto ((taskNewRest child grown ++ rest) :: lower) with blocks := child :: c.blocks } tasks task := by
  have hnew : ∀ j, j ∈ makings ((taskNewRest child grown ++ rest) :: lower) ↔
      (j ∈ taskNewRest child grown ∧ j.making.isSome) ∨ j ∈ makings c.stack := fun j => by
    rw [hstack, mem_makings_append, mem_makings_cons_cons (i := .taskNew)]
    exact or_congr_right (or_iff_right fun hj => by rw [hj.1] at hj; cases hj.2).symm
  refine ⟨hsep, fun u hu => List.mem_cons_of_mem _ (h.sub hu), fun j hj u hju => ?_, fun u hu hclear => ?_, h.list⟩
  · rcases (hnew j).mp hj with ⟨hj, -⟩ | hj
    · exact making_taskNewRest hj hju ▸ List.mem_cons_self
    · exact List.mem_cons_of_mem _ (h.making j hj u hju)
  · rcases List.mem_cons.mp hu with rfl | hu
    · exact absurd ((hnew _).mpr (.inl ⟨by simp [taskNewRest], rfl⟩)) hclear
    · exact h.task u hu fun hold => hclear ((hnew _).mpr (.inr hold))

end Rep

/-! ### Steps -/

section

variable {cfg : Config} {c c' : MemState} {tasks : List TaskRef} {task : TaskRef → Task} {i : Instr} {rest : Frame}
  {lower : Stack}

/-- A statement that leaves nothing open. -/
theorem execute_rep (h : Rep head c tasks task) (hinv : (c.view tasks task).Inv)
    (hstack : c.stack = (i :: rest) :: lower) (he : c.execute head cfg rest lower i = some c') : ∃ tasks' task',
      (c.view tasks task).execute cfg rest lower i = some (c'.view tasks' task') ∧ Rep head c' tasks' task' := by
  obtain ⟨k, σ, ρ, hσ, hi, hrest, hbelow⟩ := hinv.top hstack
  have hd := hinv.data
  have hcur : c.current ∈ tasks := hd.current_mem
  have hown : c.owner ∈ tasks := hd.owner_mem
  have hmake : ∀ t ∈ i.making, t ∈ c.blocks := fun t ht => by
    refine h.making i ?_ t ht
    rw [hstack]
    exact mem_makings_cons_cons.mpr (.inl ⟨rfl, Option.isSome_iff_exists.mpr ⟨t, ht⟩⟩)
  have hpop := h.pop hstack
  have hok : StackOk c.owner k σ c.stack := hstack ▸ stackOk_cons.mpr ⟨typed_cons.mpr ⟨ρ, hi, hrest⟩, hbelow⟩
  have hnone : σ.making = none → makings c.stack = [] := hok.makings_eq_nil
  cases hi <;> simp only [MemState.execute, Option.some.injEq, reduceCtorEq] at he
  case print | readEip | cli | sti | stiFree | iret | klog | int255 =>
    subst he
    exact ⟨tasks, task, rfl, (hpop (by simp)).same rfl rfl rfl⟩
  case trace =>
    simp only [State.execute] at he ⊢
    split_ifs at he ⊢ with hlevel
    · cases he
      exact ⟨tasks, task, rfl, (hpop (by simp)).same rfl rfl rfl⟩
    · cases he
      exact ⟨tasks, task, rfl, (hpop (by simp)).same rfl rfl rfl⟩
  case halt =>
    subst he
    exact ⟨tasks, task, rfl, h⟩
  case callTask =>
    subst he
    have hold := hnone rfl
    have hlower : makings lower = [] := List.subset_nil.mp (hold ▸ hstack ▸ makings_lower _ lower)
    exact ⟨tasks, task, rfl, h.same rfl rfl (hlower.trans hold.symm)⟩
  case clearTicks =>
    subst he
    exact ⟨tasks, _, rfl, (hpop (by simp)).store (h.sub hcur) .ticks 0⟩
  case refill =>
    subst he
    exact ⟨tasks, _, rfl, (hpop (by simp)).store (h.sub hcur) .ticks TICKS_PER_SLICE⟩
  case saveEip ctx =>
    subst he
    exact ⟨tasks, _, rfl, (hpop (by simp)).store (h.sub hown) .eip ctx.eip⟩
  case saveEsp ctx =>
    subst he
    exact ⟨tasks, _, rfl, (hpop (by simp)).store (h.sub hown) .esp ctx.esp⟩
  case saveEbp ctx =>
    subst he
    exact ⟨tasks, _, rfl, (hpop (by simp)).store (h.sub hown) .ebp ctx.ebp⟩
  case taskSwitch =>
    have hticks : loadField c.mem c.current .ticks = (task c.current).ticks := h.load hinv hcur .ticks
    rw [hticks] at he
    simp only [State.execute]
    split_ifs at he with hzero
    · cases he
      exact ⟨tasks, _, if_pos hzero, (hpop (by simp)).store (h.sub hcur) .ticks _⟩
    · cases he
      exact ⟨tasks, task, if_neg hzero, (hpop (by simp)).same rfl rfl rfl⟩
  case advance ctx =>
    subst he
    refine ⟨tasks, task, ?_, (hpop (by simp)).same rfl rfl rfl⟩
    rw [h.successor hd]
    rfl
  case perform ctx =>
    have hcontext : c.context c.current = (task c.current).context := congrArg Task.context (h.read hinv hcur)
    rw [hcontext, Option.map_eq_some_iff] at he
    obtain ⟨⟨u, stack⟩, himage, rfl⟩ := he
    -- what is switched to is the stack of a task with nothing pending
    obtain ⟨ctx', -, hparked, -, k', st, hst, hok⟩ := (State.perform_spec hd hσ).2 c.current hcur
    have heq : some (u, stack) = some (c.current, st) := himage.symm.trans (hparked ▸ hst)
    obtain ⟨rfl, rfl⟩ := Prod.mk.inj (Option.some.inj heq)
    exact ⟨tasks, task, congrArg (Option.map _) himage,
      h.same rfl rfl ((hok.makings_eq_nil rfl).trans (hnone rfl).symm)⟩
  case memset child =>
    subst he
    exact ⟨tasks, _, rfl, h.clear hstack hσ.2⟩
  case readParent child =>
    subst he
    refine ⟨tasks, task, rfl, h.enter hstack (by simp) fun j hj u hu => ?_⟩
    exact making_threadCreateRest hj hu ▸ hmake child rfl
  case setId child =>
    have hid : loadField c.mem (c.view tasks task).owner .id = (task c.owner).id := h.load hinv hown .id
    rw [hid] at he
    subst he
    exact ⟨tasks, _, rfl, (hpop (by simp)).store (hmake child rfl) .id _⟩
  case setStackStart child newStack =>
    subst he
    exact ⟨tasks, _, rfl, (hpop (by simp)).store (hmake child rfl) .stackStart newStack⟩
  case insertAfter child =>
    subst he
    exact ⟨_, task, rfl, (hpop (by simp)).insertAfter hown (hmake child rfl) hσ.2.1⟩
  case parent child =>
    simp only [State.execute]
    split_ifs at he with hbranch
    · cases he
      exact ⟨tasks, task, if_pos hbranch, (hpop (by simp)).same rfl rfl rfl⟩
    · cases he
      exact ⟨tasks, task, if_neg hbranch, (hpop (by simp)).same rfl rfl rfl⟩
  case child p hp =>
    simp only [State.execute]
    split_ifs at he with hbranch
    · cases he
      exact ⟨tasks, task, if_pos hbranch, (hpop (by simp)).same rfl rfl rfl⟩
    · cases he
      exact ⟨tasks, task, if_neg hbranch, (hpop (by simp)).same rfl rfl rfl⟩
  case setEsp child ctx =>
    subst he
    exact ⟨tasks, _, rfl, (hpop (by simp)).store (h.sub hσ.1.2.2.1) .esp ctx.esp⟩
  case setEbp child ctx =>
    subst he
    exact ⟨tasks, _, rfl, (hpop (by simp)).store (h.sub hσ.1.2.2.1) .ebp ctx.ebp⟩
  case setEip child ctx =>
    subst he
    have hstore := (hpop (by simp)).store (h.sub hσ.1.2.2.1) .eip ctx.eip
    have hclear : .memset child ∉ makings (rest :: lower) := fun hmem =>
      List.eq_nil_iff_forall_not_mem.mp (hnone rfl) _ (hstack ▸ mem_makings_cons_cons.mpr (.inr hmem))
    have hcontext := congrArg Task.context (hstore.task child (h.sub hσ.1.2.2.1) hclear)
    refine ⟨tasks, _, ?_, hstore.same rfl rfl rfl⟩
    exact congrArg (fun ctx' => some { ((c.goto (rest :: lower)).store child .eip ctx.eip).view tasks _ with
      stored := (child, ctx') :: c.stored }) hcontext.symm

theorem view_userStep (act : UserAct) :
    (c.userStep rest lower act).view tasks task = (c.view tasks task).userStep rest lower act := by
  cases act <;> rfl

theorem view_captured (curr : TaskRef) (esp ebp : UInt32) :
    (c.captured cfg curr esp ebp rest lower).view tasks task =
      (c.view tasks task).captured cfg curr esp ebp rest lower := by
  simp only [MemState.captured, State.captured]
  split_ifs <;> rfl

/-- A statement that does not go on with a child leaves none to be cleared. -/
theorem not_memset (hinv : (c.view tasks task).Inv) (hstack : c.stack = (i :: rest) :: lower) (hi : ∀ t, i ≠ .memset t)
    (hafter : ∀ o k σ u, ¬ Moves o k i σ (.building u)) (u : TaskRef) : .memset u ∉ makings c.stack := by
  obtain ⟨k, σ, ρ, -, hmoves, hrest, hbelow⟩ := hinv.top (s := c.view tasks task) hstack
  rw [hstack]
  intro hmem
  have hlater := (mem_makings_cons_cons.mp hmem).resolve_left fun he => hi u he.1.symm
  have hρ := (stackOk_cons.mpr ⟨hrest, hbelow⟩).memset hlater
  exact hafter _ _ _ u (hρ ▸ hmoves)

/-- **Each step in memory is a step of the scheduler.** -/
theorem stepAct_rep (h : Rep head c tasks task) (hinv : (c.view tasks task).Inv) {a : Act}
    (hs : c.stepAct head cfg a = some c') :
    ∃ tasks' task', (c.view tasks task).step cfg a = some (c'.view tasks' task') ∧ Rep head c' tasks' task' := by
  have hd := hinv.data
  have hview : (c.view tasks task).stack = c.stack := rfl
  have hown : loadField c.mem c.owner .stackStart = (task c.owner).stackStart := h.load hinv hd.owner_mem .stackStart
  cases a with
  | timer =>
    simp only [MemState.stepAct] at hs
    split_ifs at hs with hflag
    cases hs
    exact ⟨tasks, task, if_pos hflag, h.same rfl rfl rfl⟩
  | step =>
    simp only [MemState.stepAct] at hs
    split at hs
    · cases hs
    · next lower hstack =>
      cases hs
      refine ⟨tasks, task, ?_, h.same rfl rfl (by rw [hstack]; rfl)⟩
      simp only [State.step, hview, hstack]
      rfl
    · next i rest lower hstack =>
      obtain ⟨tasks', task', hstep, hrep⟩ := execute_rep h hinv hstack hs
      refine ⟨tasks', task', ?_, hrep⟩
      simp only [State.step, hview, hstack, hstep]
  | user act =>
    simp only [MemState.stepAct] at hs
    split at hs
    · next rest lower hstack =>
      cases hs
      refine ⟨tasks, task, ?_, ?_⟩
      · simp only [State.step, hview, hstack, view_userStep]
      · cases act with
        | cli | sti => exact h.same rfl rfl rfl
        | yield | threadCreate => exact h.same rfl rfl (by rw [hstack]; rfl)
        | ret => exact h.pop hstack (by simp)
    · cases hs
  | kmalloc child grown =>
    simp only [MemState.stepAct] at hs
    split at hs
    · next rest lower hstack =>
      split_ifs at hs with hfresh
      cases hs
      refine ⟨tasks, task, ?_, h.kmalloc hstack hfresh.2⟩
      have hout : child ∉ (c.view tasks task).tasks := fun hmem => hfresh.1 (h.sub hmem)
      simp only [State.step, hview, hstack, if_neg hout]
      rfl
    · cases hs
  | page newStack redirected =>
    simp only [MemState.stepAct] at hs
    split at hs
    · next child parent rest lower hstack =>
      split_ifs at hs with hfree
      cases hs
      rw [MemState.PageFree, h.foreach hd] at hfree
      -- the pages that `LIST_FOREACH` finds are those of the tasks
      have hapart : ∀ u ∈ (c.view tasks task).tasks,
          PagesApart newStack ((c.view tasks task).task u).stackStart := fun u hu => by
        have hpage := hfree.2 (addr u) (List.mem_map_of_mem hu)
        rw [addr_toNat h.separate (h.sub hu), h.load hinv hu .stackStart] at hpage
        exact hpage
      refine ⟨tasks, task, ?_, h.enter hstack (by simp) fun j hj u hu => ?_⟩
      · simp only [State.step, hview, hstack]
        rw [if_pos ⟨hfree.1, hapart⟩]
        rfl
      · refine h.making (.allocBlock child parent) ?_ u (making_copyStackRest hj hu ▸ rfl)
        exact hstack ▸ mem_makings_cons_cons.mpr (.inl ⟨rfl, rfl⟩)
    · cases hs
  | panic =>
    have hpanic : ∀ {i : Instr} {rest : Frame} {lower : Stack}, c.stack = (i :: rest) :: lower →
        (∀ u, .memset u ∉ makings c.stack) → Rep head (c.goto (KPANIC :: lower)) tasks task := fun hstack hclear =>
      h.control rfl rfl (fun j hj => h.making j (hstack ▸ makings_lower _ _ hj)) fun u hu => absurd hu (hclear u)
    simp only [MemState.stepAct] at hs
    split at hs
    · next rest lower hstack =>
      cases hs
      refine ⟨tasks, task, ?_, hpanic hstack (not_memset hinv hstack (by simp) fun _ _ _ _ hm => by cases hm)⟩
      simp only [State.step, hview, hstack]
      rfl
    · next child parent rest lower hstack =>
      cases hs
      refine ⟨tasks, task, ?_, hpanic hstack (not_memset hinv hstack (by simp) fun _ _ _ _ hm => by cases hm)⟩
      simp only [State.step, hview, hstack]
      rfl
    · cases hs
  | regs esp ebp =>
    simp only [MemState.stepAct] at hs
    split_ifs at hs with hpage
    rw [hown] at hpage
    have hpage' : InPage ((c.view tasks task).task (c.view tasks task).owner).stackStart esp := hpage
    split at hs
    · next curr rest lower hstack =>
      cases hs
      refine ⟨tasks, task, ?_, ?_⟩
      · simp only [State.step, if_pos hpage', hview, hstack, view_captured]
      · simp only [MemState.captured]
        split_ifs
        · exact (h.pop hstack (by simp)).same rfl rfl rfl
        · exact (h.pop hstack (by simp)).same rfl rfl rfl
    · next child parent rest lower hstack =>
      cases hs
      obtain ⟨k, σ, ρ, hσ, hi, -⟩ := hinv.top hstack
      cases hi
      have hchild := h.load hinv hσ.2.2.1 .stackStart
      have hparent := h.load hinv hd.owner_mem .stackStart
      refine ⟨tasks, task, ?_, (h.pop hstack (by simp)).same rfl rfl rfl⟩
      simp only [State.step, if_pos hpage', hview, hstack, MemState.configured, hchild, hparent]
      rfl
    · cases hs

/-- **Each step in memory is a step of the scheduler, or none.** -/
theorem step_rep (hlevel : LEVEL_TRACE < cfg.level) {x : MemAct} {s : State}
    (h : ∃ tasks task, s = c.view tasks task ∧ Rep head c tasks task ∧ s.Inv)
    (hs : (memMachine head cfg).step c x = some c') :
    ∃ s', (schedMachine cfg).run s x.acts = some s' ∧ ∃ tasks task, s' = c'.view tasks task ∧
    Rep head c' tasks task ∧ s'.Inv := by
  obtain ⟨tasks, task, rfl, hrep, hinv⟩ := h
  cases x with
  | act a =>
    obtain ⟨tasks', task', hstep, hrep'⟩ := stepAct_rep hrep hinv hs
    refine ⟨c'.view tasks' task', ?_, tasks', task', rfl, hrep', State.step_inv hlevel hinv hstep⟩
    exact (schedMachine cfg).run_cons.mpr ⟨_, hstep, rfl⟩
  | write a v =>
    have hwrite : (if Owned head c.blocks a then none else some { c with mem := c.mem.set a v }) = some c' := hs
    split_ifs at hwrite with ha
    cases hwrite
    exact ⟨c.view tasks task, rfl, tasks, task, rfl, hrep.write ha v, hinv⟩

end

/-! ### Runs -/

section

variable {root : TaskRef}

/-- What `task_init` leaves. -/
theorem init_rep (hsep : Separate head [root]) (hempty : m.load32 head = 0) (heap : TaskRef → Task) :
    Rep head (MemState.init head m root) [root] (State.init root heap).task := by
  have hroot : root ∈ [root] := List.mem_singleton.mpr rfl
  have hhead : ∀ k : UInt32, k.toNat + 4 ≤ taskSize → WordsApart (addr root + k) head :=
    fun k hk => hsep.apart_head hroot hk
  -- the memory before the insertion
  let cleared := Libc.memset m (addr root) 0 (UInt32.ofNat taskSize)
  let filled := storeField (storeField cleared root .stackStart kernelStack) root .ticks TICKS_PER_SLICE
  have htask : readTask filled root = ⟨0, 0, 0, kernelStack, 0, TICKS_PER_SLICE⟩ := by
    rw [readTask_storeField, readTask_storeField]
    have hzero : readTask cleared root = ⟨0, 0, 0, 0, 0, 0⟩ := task_ext fun f => by
      rw [readTask_get, loadField, Libc.load32_memset_zero m (addr root) f.offset_le]
      cases f <;> rfl
    rw [hzero]
    rfl
  have hbefore : cleared.load32 head = m.load32 head := Libc.load32_memset_apart m _ _ (by decide) hhead
  have hlist : IsList filled nextTask head [] := by
    refine ⟨?_, List.pairwise_singleton _ _, List.not_mem_nil⟩
    calc filled.load32 head = cleared.load32 head :=
          (load32_store32_apart _ (hhead _ (Field.offset_le .ticks)) _).trans
            (load32_store32_apart _ (hhead _ (Field.offset_le .stackStart)) _)
      _ = 0 := hbefore.trans hempty
  have hfresh := hsep.fresh (List.nil_subset _) hroot List.not_mem_nil
  refine ⟨hsep, List.Subset.refl _, fun _ hj => absurd hj List.not_mem_nil, fun u hu _ => ?_,
    LIST_INSERT_HEAD_isList hlist hfresh⟩
  obtain rfl := List.mem_singleton.mp hu
  calc readTask (MemState.init head m u).mem u = readTask filled u :=
        hsep.readTask_congr (List.Subset.refl _) hroot fun x hx => load32_LIST_INSERT_HEAD hlist hfresh hx
    _ = (State.init u heap).task u := htask.trans (Function.update_self u _ heap).symm

/-- **Each run in memory is a run of the scheduler**, and the list of tasks and their fields are in memory. -/
theorem memMachine_refines {cfg : Config} (hlevel : LEVEL_TRACE < cfg.level) (hsep : Separate head [root])
    (hempty : m.load32 head = 0) (heap : TaskRef → Task) {acts : List MemAct} {c : MemState}
    (h : (memMachine head cfg).run (MemState.init head m root) acts = some c) : ∃ tasks task,
      (schedMachine cfg).run (State.init root heap) (acts.flatMap MemAct.acts) = some (c.view tasks task) ∧
        IsList c.mem nextTask head (tasks.map addr) ∧ ∀ t ∈ tasks, readTask c.mem t = task t := by
  have hinit : ∃ tasks task, State.init root heap = (MemState.init head m root).view tasks task ∧
      Rep head (MemState.init head m root) tasks task ∧ (State.init root heap).Inv :=
    ⟨[root], _, rfl, init_rep hsep hempty heap, State.init_inv root heap⟩
  obtain ⟨s, hrun, tasks, task, rfl, hrep, hinv⟩ :=
    (memMachine head cfg).simulates_rel (fun _ _ _ _ hR hs => step_rep hlevel hR hs) hinit h
  exact ⟨tasks, task, hrun, hrep.list, fun t ht => hrep.read hinv ht⟩

/-- So many statements. -/
def memSteps (n : ℕ) : List MemAct := List.replicate n (.act .step)

/-- The task at `0x2000` creates one at `0x2020`, while other code writes behind it. -/
def memCreateActs : List MemAct :=
  [.act (.user .threadCreate)] ++ memSteps 3 ++ [.act (.kmalloc 0x2020 false), .write 0x2040 1] ++ memSteps 7 ++
    [.act (.page 0x400000 0)] ++ memSteps 16 ++ [.act (.regs 0xC07FFF00 0xC07FFF40)] ++ memSteps 7

theorem memMachine_refines_create :
    ∃ c tasks task,
      (memMachine 0x1000 sampleConfig).run (MemState.init 0x1000 (fun _ => 0) 0x2000) memCreateActs = some c ∧
      LIST_FOREACH c.mem 0x1000 nextTask 3 = [0x2000, 0x2020] ∧
      (schedMachine sampleConfig).run (State.init 0x2000 fun _ => ⟨0, 0, 0, 0, 0, 0⟩)
        (memCreateActs.flatMap MemAct.acts) = some (c.view tasks task) ∧
      IsList c.mem nextTask 0x1000 (tasks.map addr) ∧ ∀ t ∈ tasks, readTask c.mem t = task t := by
  have hrun : ((memMachine 0x1000 sampleConfig).run (MemState.init 0x1000 (fun _ => 0) 0x2000) memCreateActs).map
      (fun c => LIST_FOREACH c.mem 0x1000 nextTask 3) = some [0x2000, 0x2020] := by
    decide +kernel
  obtain ⟨c, hc, hlist⟩ := Option.map_eq_some_iff.mp hrun
  obtain ⟨tasks, task, hrefines⟩ := memMachine_refines (by decide) (by decide) (by decide) _ hc
  exact ⟨c, tasks, task, hc, hlist, hrefines⟩

end

end MoltarOS.Sched
