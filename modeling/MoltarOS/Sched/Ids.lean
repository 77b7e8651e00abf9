import Mathlib.Data.List.Perm.Subperm
import MoltarOS.Lib.Lineage
import MoltarOS.Sched.RoundRobin

/-!
# Ids

`thread_create` gives the child the id of its parent plus 1, long before the child is in the
list. `Numbered` follows what the rest of a frame does to the ids up to there; the tasks
then form a `Lineage`, a task's id being its generation.

## What is proved

* `ids_distinct_iff` — after any run, the ids of the tasks in the list are pairwise different exactly if no
  task has created two others.
* `not_ids_distinct` — two children of the first task both have the id 1.
-/

namespace MoltarOS.Sched

open MoltarOS.Lib
open MoltarOS.Mm (PAGE_SIZE)

/-! ### What frames do to ids -/

/-- What a statement does to the ids of tasks. -/
def Instr.number (id : TaskRef → UInt32) : Instr → TaskRef → UInt32
  | .memset child => Function.update id child 0
  | .setId child parent => Function.update id child (id parent + 1)
  | _ => id

/-- The statements that have to do with ids. -/
def Instr.isNumbering : Instr → Bool
  | .memset _ | .setId _ _ | .insertAfter _ _ => true
  | _ => false

/-- A child that the frame puts into the list has the id of its parent plus 1 by then. -/
def Numbered : (TaskRef → UInt32) → Frame → Prop
  | _, [] => True
  | id, i :: f => (∀ p c, i = .insertAfter p c → id c = id p + 1) ∧ Numbered (i.number id) f

/-- The frame has nothing to do with ids. -/
def Plain (f : Frame) : Prop := ∀ i ∈ f, i.isNumbering = false

instance (f : Frame) : Decidable (Plain f) := inferInstanceAs (Decidable (∀ i ∈ f, i.isNumbering = false))

variable {id : TaskRef → UInt32} {f g : Frame} {o : TaskRef} {k : Kind} {σ τ : Stage}

theorem number_of_plain {i : Instr} (hi : i.isNumbering = false) : i.number id = id := by
  cases i <;> first | rfl | cases hi

theorem Plain.numbered_append (hf : Plain f) (hg : Numbered id g) : Numbered id (f ++ g) := by
  induction f with
  | nil => exact hg
  | cons i f ih =>
    have hi := hf i List.mem_cons_self
    refine ⟨?_, ?_⟩
    · rintro p c rfl
      cases hi
    · rw [number_of_plain hi]
      exact ih fun j hj => hf j (List.mem_cons_of_mem i hj)

/-- A frame that puts nothing into the list. -/
theorem numbered_of_notMem (hf : ∀ p c, .insertAfter p c ∉ f) : Numbered id f := by
  induction f generalizing id with
  | nil => trivial
  | cons i f ih =>
    refine ⟨?_, ih fun p c hmem => hf p c (List.mem_cons_of_mem i hmem)⟩
    rintro p c rfl
    exact absurd List.mem_cons_self (hf p c)

theorem Plain.notMem (hf : Plain f) (p c : TaskRef) : .insertAfter p c ∉ f := fun hmem => by
  cases hf _ hmem

theorem Plain.numbered (hf : Plain f) : Numbered id f := numbered_of_notMem hf.notMem

/-- Nothing is pending, or interrupts are disabled. -/
def Stage.idle : Stage → Bool
  | .free | .masked => true
  | _ => false

theorem Moves.idle {i : Instr} (h : Moves o k i σ τ) (hσ : σ.idle) : i.isNumbering = false ∧ τ.idle := by
  cases h <;> first | exact ⟨rfl, hσ⟩ | exact ⟨rfl, rfl⟩ | cases hσ

/-- Where no child is pending, a frame has nothing to do with ids. -/
theorem Typed.plain (h : Typed o k σ f) (hσ : σ.idle) : Plain f := by
  induction f generalizing σ with
  | nil => exact fun i hi => absurd hi List.not_mem_nil
  | cons i f ih =>
    obtain ⟨ρ, hi, hf⟩ := typed_cons.mp h
    obtain ⟨hplain, hρ⟩ := hi.idle hσ
    exact List.forall_mem_cons.mpr ⟨hplain, ih hf hρ⟩

/-! ### The frames of the code -/

theorem plain_copyStackRest (c : TaskRef) (newStack : UInt32) (n : ℕ) : Plain (copyStackRest c newStack n) := by
  refine List.forall_mem_append.mpr ⟨List.forall_mem_append.mpr ⟨by decide, fun i hi => ?_⟩, ?_⟩
  · rw [List.eq_of_mem_replicate hi]
    rfl
  · exact List.forall_mem_cons.mpr ⟨rfl, List.forall_mem_singleton.mpr rfl⟩

theorem plain_switchRest (c : TaskRef) (ctx : Context) : Plain (switchRest c ctx) := by
  simp [Plain, switchRest, Instr.isNumbering]

theorem plain_setupRest (c : TaskRef) (ctx : Context) : Plain (setupRest c ctx) := by
  simp [Plain, setupRest, Instr.isNumbering, KTRACE]

theorem numbered_taskNewRest (c : TaskRef) (grown : Bool) (hf : Plain f) : Numbered id (taskNewRest c grown ++ f) := by
  refine numbered_of_notMem fun p c' hmem => ?_
  rcases List.mem_append.mp hmem with hmem | hmem
  · cases grown <;> simp [taskNewRest, KTRACE] at hmem
  · exact hf.notMem p c' hmem

/-- `thread_create` gives the child its id before it puts it into the list. -/
theorem numbered_threadCreateRest {c p : TaskRef} (hne : p ≠ c) (hf : Plain f) :
    Numbered id (threadCreateRest c p ++ f) := by
  refine ⟨by simp, by simp [KTRACE], by simp, by simp [KTRACE], ?_, by simp [KTRACE], by simp, by simp, hf.numbered⟩
  intro p' c' heq
  cases heq
  simp only [Instr.number, KTRACE, Function.update_self, Function.update_of_ne hne]

namespace State

variable {s t : State} {cfg : Config} {i : Instr} {rest : Frame} {lower : Stack}

/-- The ids of the tasks. -/
def ids (s : State) (u : TaskRef) : UInt32 := (s.task u).id

/-- The frame that is executed puts children into the list only with their ids. -/
def TopNumbered (s : State) : Prop := ∀ f lower, s.stack = f :: lower → Numbered s.ids f

theorem ids_modify (s : State) (v : TaskRef) (f : Task → Task) (stack : Stack) :
    ((s.goto stack).modify v f).ids = Function.update s.ids v (f (s.task v)).id := by
  funext u
  by_cases hu : u = v
  · rw [hu, ids, modify_task_self, Function.update_self]
    rfl
  · rw [ids, modify_task_of_ne v f hu, Function.update_of_ne hu]
    rfl

theorem ids_modify_same (s : State) (v : TaskRef) (f : Task → Task) (stack : Stack)
    (hf : (f (s.task v)).id = (s.task v).id) :
    ((s.goto stack).modify v f).ids = s.ids := by
  rw [ids_modify, hf]
  exact Function.update_eq_self v s.ids

/-- A statement does to the ids what it should. -/
theorem execute_ids (he : s.execute cfg rest lower i = some t) : t.ids = i.number s.ids := by
  cases i <;> simp only [execute, Option.some.injEq, reduceCtorEq] at he
  case memset | setId =>
    subst he
    exact ids_modify _ _ _ _
  case clearTicks | refill | saveEip | saveEsp | saveEbp | setStackStart | setEsp | setEbp =>
    subst he
    exact ids_modify_same _ _ _ _ rfl
  case setEip c eip =>
    subst he
    exact ids_modify_same s c (fun t => { t with eip := eip }) _ rfl
  case taskSwitch =>
    split_ifs at he <;> cases he
    · exact ids_modify_same _ _ _ _ rfl
    · rfl
  case log | branch => split_ifs at he <;> cases he <;> rfl
  case performTaskSwitch =>
    obtain ⟨⟨u, stack⟩, -, rfl⟩ := Option.map_eq_some_iff.mp he
    rfl
  all_goals
    subst he
    rfl

/-- What is executed next: something plain, or the rest of the frame after something plain, but for the start of a child
and for the switch to another task. -/
theorem execute_stack (hstack : s.stack = (i :: rest) :: lower) (he : s.execute cfg rest lower i = some t) :
    (∃ f below, Plain f ∧ t.stack = f :: below) ∨ (∃ f, Plain f ∧ t.stack = (f ++ rest) :: lower) ∨
    (∃ c, i = .readParent c ∧ t.stack = (threadCreateRest c s.current ++ rest) :: lower) ∨ i = .performTaskSwitch := by
  cases i <;> simp only [execute, Option.some.injEq, reduceCtorEq] at he
  case readParent c =>
    subst he
    exact Or.inr (Or.inr (Or.inl ⟨c, rfl, rfl⟩))
  case performTaskSwitch => exact Or.inr (Or.inr (Or.inr rfl))
  case klog =>
    subst he
    exact Or.inl ⟨KLOG, _, by decide, rfl⟩
  case callTask =>
    subst he
    exact Or.inl ⟨[.user], _, by decide, rfl⟩
  case int255 =>
    subst he
    exact Or.inl ⟨handler s.flag, _, (typed_handler (o := 0) s.flag).plain rfl, rfl⟩
  case log level =>
    split_ifs at he <;> cases he
    · exact Or.inl ⟨KLOG, _, by decide, rfl⟩
    · exact Or.inr (Or.inl ⟨[.print], by decide, rfl⟩)
  case branch child parent =>
    split_ifs at he <;> cases he
    · exact Or.inr (Or.inl ⟨[KTRACE, .readRegs child parent],
        List.forall_mem_cons.mpr ⟨rfl, List.forall_mem_singleton.mpr rfl⟩, rfl⟩)
    · exact Or.inr (Or.inl ⟨[.sti, .callTask], by decide, rfl⟩)
  case taskSwitch =>
    split_ifs at he <;> cases he
    · exact Or.inr (Or.inl ⟨[], by decide, rfl⟩)
    · exact Or.inr (Or.inl ⟨[.capture s.current], List.forall_mem_singleton.mpr rfl, rfl⟩)
  case halt =>
    subst he
    exact Or.inr (Or.inl ⟨[.halt], by decide, hstack⟩)
  all_goals
    subst he
    exact Or.inr (Or.inl ⟨[], by decide, rfl⟩)

theorem execute_topNumbered (h : s.Inv) (hn : s.TopNumbered) (hstack : s.stack = (i :: rest) :: lower)
    (he : s.execute cfg rest lower i = some t) : t.TopNumbered := by
  obtain ⟨-, hrest⟩ := hn _ _ hstack
  rw [← execute_ids he] at hrest
  intro f below hf
  rcases execute_stack hstack he with ⟨g, b, hg, ht⟩ | ⟨g, hg, ht⟩ | ⟨c, rfl, ht⟩ | rfl
  · cases hf.symm.trans ht
    exact hg.numbered
  · cases hf.symm.trans ht
    exact hg.numbered_append hrest
  · cases hf.symm.trans ht
    obtain ⟨k, σ, ρ, hσ, hi, htyped, -⟩ := h.top hstack
    cases hi
    have hne : s.current ≠ c := fun he => hσ.2 (he ▸ h.data.current_mem)
    exact numbered_threadCreateRest hne (htyped.plain rfl)
  · obtain ⟨k, σ, ρ, hσ, hi, -, -⟩ := h.top hstack
    cases hi
    obtain ⟨ctx, -, hcontext, -, k', st, himage, hok⟩ := (perform_spec h.data hσ).2 s.current h.data.current_mem
    simp only [execute, hcontext, himage, Option.map_some, Option.some.injEq] at he
    subst he
    obtain rfl : st = f :: below := hf
    exact ((stackOk_cons.mp hok).1.plain rfl).numbered

/-- **Every step keeps the numbering.** -/
theorem step_topNumbered (h : s.Inv) (hn : s.TopNumbered) {a : Act} (hs : s.step cfg a = some t) : t.TopNumbered := by
  cases stepped_of_step hs with
  | execute hstack he => exact execute_topNumbered h hn hstack he
  | timer hflag =>
    intro f below hf
    cases hf
    exact ((typed_handler (o := s.owner) s.flag).plain rfl).numbered
  | done hstack =>
    obtain ⟨-, k, σ, hok, -⟩ := h
    rw [hstack, stackOk_cons] at hok
    obtain ⟨k', hlower⟩ := hok.2.stackOk
    rintro f below rfl
    exact ((stackOk_cons.mp hlower).1.plain rfl).numbered
  | user c hstack =>
    cases c with
    | cli | sti => exact hn
    | yield | threadCreate =>
      intro f below hf
      cases hf
      exact Plain.numbered (by decide)
    | ret =>
      intro f below hf
      cases hf
      exact (hn _ _ hstack).2
  | kmalloc child grown hstack hfresh =>
    obtain ⟨k, σ, ρ, hσ, hi, htyped, -⟩ := h.top hstack
    cases hi
    intro f below hf
    cases hf
    exact numbered_taskNewRest child grown (htyped.plain rfl)
  | page newStack redirected hstack hfree =>
    intro f below hf
    cases hf
    exact (plain_copyStackRest _ newStack redirected).numbered_append (hn _ _ hstack).2
  | panicNew hstack | panicBlock hstack =>
    intro f below hf
    cases hf
    exact Plain.numbered (by decide)
  | capture ebp hstack hpage =>
    rw [captured, if_pos cfg.switch_ne]
    intro f below hf
    cases hf
    exact (plain_switchRest _ _).numbered_append (hn _ _ hstack).2
  | readRegs ebp hstack hpage =>
    intro f below hf
    cases hf
    exact (plain_setupRest _ _).numbered_append (hn _ _ hstack).2

/-! ### Creations -/

/-- Who puts whom into the list in a step. -/
def creates (s : State) : Act → List (TaskRef × TaskRef)
  | .step =>
    match s.stack with
    | (.insertAfter parent child :: _) :: _ => [(parent, child)]
    | _ => []
  | _ => []

/-- Only ids of tasks outside the list change. -/
theorem step_ids (h : s.Inv) {a : Act} (hs : s.step cfg a = some t) {u : TaskRef} (hu : u ∈ s.tasks) :
    t.ids u = s.ids u := by
  cases stepped_of_step hs with
  | @execute i rest lower _ hstack he =>
    have houtside : ∀ c, c ∉ s.tasks → u ≠ c := fun c hc huc => hc (huc ▸ hu)
    rw [execute_ids he]
    cases i with
    | memset c | setId c p =>
      obtain ⟨k, σ, ρ, hσ, hi, -, -⟩ := h.top hstack
      cases hi
      exact Function.update_of_ne (houtside c hσ.2) _ _
    | _ => rfl
  | user c hstack => cases c <;> rfl
  | capture ebp hstack hpage => rw [captured, if_pos cfg.switch_ne, ids, ids]
  | _ => rfl

/-- A step that creates nobody keeps the list; else the running task creates a child that was not in the list, with
its id plus 1. -/
theorem step_creates (h : s.Inv) (hn : s.TopNumbered) {a : Act} (hs : s.step cfg a = some t) :
    (s.creates a = [] ∧ t.tasks = s.tasks) ∨
    ∃ c, s.creates a = [(s.owner, c)] ∧ c ∉ s.tasks ∧ t.tasks = listInsertAfter s.tasks s.owner c ∧
      t.ids c = t.ids s.owner + 1 := by
  cases stepped_of_step hs with
  | @execute i rest lower _ hstack he =>
    rcases execute_list he with ⟨rfl, htasks, -⟩ | ⟨p, c, rfl, htasks, -⟩ | ⟨hne, -, htasks, -⟩
    · exact Or.inl ⟨by rw [creates, hstack], htasks⟩
    · obtain ⟨k, σ, ρ, hσ, hi, -, -⟩ := h.top hstack
      cases hi
      refine Or.inr ⟨c, by rw [creates, hstack], hσ.2.1, htasks, ?_⟩
      rw [execute_ids he]
      exact (hn _ _ hstack).1 _ _ rfl
    · refine Or.inl ⟨?_, htasks⟩
      simp only [creates, hstack]
      split
      · next heq => simp_all
      · rfl
  | done hstack => exact Or.inl ⟨by rw [creates, hstack], rfl⟩
  | user c hstack => exact Or.inl ⟨rfl, by cases c <;> rfl⟩
  | capture ebp hstack hpage => exact Or.inl ⟨rfl, by rw [captured, if_pos cfg.switch_ne]⟩
  | _ => exact Or.inl ⟨rfl, rfl⟩

/-- There is room for 1024 stacks. -/
theorem Data.tasks_length_le (h : s.Data) : s.tasks.length ≤ 1024 := by
  -- stacks apart have no 4 MB frame in common
  have hinj : (s.tasks.map fun u => (s.task u).stackStart.toNat / 2 ^ 22).Nodup := by
    refine List.Nodup.map_on (fun u hu v hv heq => by_contra fun hne => ?_) h.nodup
    have hpage : PAGE_SIZE.toNat = 2 ^ 22 := rfl
    rcases h.apart u hu v hv hne with hlt | hlt <;> omega
  have hsub : (s.tasks.map fun u => (s.task u).stackStart.toNat / 2 ^ 22) ⊆ List.range 1024 := by
    intro n hn
    obtain ⟨u, hu, rfl⟩ := List.mem_map.mp hn
    have hlt := UInt32.toNat_lt (s.task u).stackStart
    rw [List.mem_range]
    omega
  have hle := (List.subperm_of_subset hinj hsub).length_le
  rwa [List.length_map, List.length_range] at hle

/-! ### Runs -/

/-- The tasks in the list and their ids are the lineage of the creations so far. -/
structure Family (s : State) (births : List (TaskRef × TaskRef)) : Prop where
  /-- The invariant of the scheduler. -/
  inv : s.Inv
  /-- That of the frame on top. -/
  top : s.TopNumbered
  /-- There is one more task than children. -/
  length : s.tasks.length = births.length + 1
  /-- Ids count generations. -/
  lineage : Lineage s.tasks (fun u => (s.ids u).toNat) births

theorem length_listInsertAfter {l : List TaskRef} {p c : TaskRef} (hp : p ∈ l) :
    (listInsertAfter l p c).length = l.length + 1 := by
  obtain ⟨pre, post, rfl, hpre⟩ := List.eq_append_cons_of_mem hp
  rw [listInsertAfter_eq hpre]
  simp only [List.length_append, List.length_cons]
  omega

theorem init_family (root : TaskRef) (heap : TaskRef → Task) : Family (init root heap) [] := by
  refine ⟨init_inv root heap, fun f lower hf => ?_, rfl, Lineage.root ?_⟩
  · cases hf
    exact Plain.numbered (by decide)
  · simp only [ids, init, Function.update_self]
    rfl

/-- **A step adds to the family** those it creates. -/
theorem step_family (hlevel : LEVEL_TRACE < cfg.level) {births : List (TaskRef × TaskRef)}
    (h : Family s births) {a : Act} (hs : s.step cfg a = some t) : Family t (births ++ s.creates a) := by
  have ht := step_inv hlevel h.inv hs
  have htop := step_topNumbered h.inv h.top hs
  have hids : ∀ u ∈ s.tasks, (t.ids u).toNat = (s.ids u).toNat := fun u hu => by rw [step_ids h.inv hs hu]
  rcases step_creates h.inv h.top hs with ⟨hcreates, htasks⟩ | ⟨c, hcreates, hc, htasks, hid⟩
  · rw [hcreates, List.append_nil]
    exact ⟨ht, htop, htasks ▸ h.length, htasks ▸ h.lineage.congr hids⟩
  · have howner := h.inv.data.owner_mem
    have hlength : t.tasks.length = s.tasks.length + 1 := by rw [htasks, length_listInsertAfter howner]
    have hlineage := h.lineage.congr hids
    -- 1024 ids are not enough to wrap around
    have hgen : (t.ids c).toNat = (t.ids s.owner).toNat + 1 := by
      have hle := hlineage.generation_le s.owner howner
      have hroom := h.inv.data.tasks_length_le
      have hlen := h.length
      rw [hid, UInt32.toNat_add]
      exact Nat.mod_eq_of_lt (by change (t.ids s.owner).toNat + 1 < 2 ^ 32; omega)
    rw [hcreates]
    refine ⟨ht, htop, by rw [hlength, h.length, List.length_append, List.length_singleton], ?_⟩
    exact hlineage.birth howner hc (fun u => by rw [htasks]; exact mem_listInsertAfter howner) hgen

end State

open State in
/-- **Ids are different** in the state after a run exactly if no task has created two children. -/
theorem ids_distinct_iff {cfg : Config} (hlevel : cfg.level = LEVEL_INFO) {root : TaskRef} {heap : TaskRef → Task}
    {acts : List Act} {s : State} (h : (schedMachine cfg).run (State.init root heap) acts = some s) :
    (∀ u ∈ s.tasks, ∀ v ∈ s.tasks, (s.task u).id = (s.task v).id → u = v) ↔
      (((schedMachine cfg).trace creates (State.init root heap) acts).map Prod.fst).Nodup := by
  have hlevel' : LEVEL_TRACE < cfg.level := by rw [hlevel]; decide
  have hfamily := (schedMachine cfg).invariant_trace (I := Family) (fun _ _ _ _ hf hs => step_family hlevel' hf hs)
    (init_family root heap) h
  rw [List.nil_append] at hfamily
  rw [← hfamily.lineage.distinct_iff]
  simp only [ids, UInt32.toNat_inj]

open State in
/-- Task `1` creates task `2`, and nobody else anybody. -/
theorem ids_distinct_iff_one :
    ∃ s, (schedMachine sampleConfig).run sampleInit createActs = some s ∧ s.tasks = [1, 2] ∧
      ∀ u ∈ s.tasks, ∀ v ∈ s.tasks, (s.task u).id = (s.task v).id → u = v := by
  have hrun : ((schedMachine sampleConfig).run sampleInit createActs).map (·.tasks) = some [1, 2] := by decide +kernel
  obtain ⟨s, hs, htasks⟩ := Option.map_eq_some_iff.mp hrun
  refine ⟨s, hs, htasks, (ids_distinct_iff rfl hs).mpr ?_⟩
  have hbirths : (schedMachine sampleConfig).trace creates sampleInit createActs = [(1, 2)] := by decide +kernel
  rw [sampleInit] at hbirths
  rw [hbirths]
  decide

/-- Task `1` creates tasks `2` and `3`. -/
def createTwiceActs : List Act :=
  [createActs, [.user .threadCreate], List.replicate 3 .step, [.kmalloc 3 false], List.replicate 7 .step,
    [.page 0x800000 0], List.replicate 16 .step, [.regs 0xC07FFF00 0xC07FFF40], List.replicate 7 .step].flatten

/-- Both have the id 1. -/
theorem not_ids_distinct :
    ¬ ∀ acts s, (schedMachine sampleConfig).run sampleInit acts = some s →
      ∀ u ∈ s.tasks, ∀ v ∈ s.tasks, (s.task u).id = (s.task v).id → u = v := by
  intro h
  have hrun : ((schedMachine sampleConfig).run sampleInit createTwiceActs).map
      (fun s => (s.tasks, (s.task 2).id, (s.task 3).id)) = some ([1, 3, 2], 1, 1) := by
    decide +kernel
  obtain ⟨s, hs, hl⟩ := Option.map_eq_some_iff.mp hrun
  rw [Prod.mk.injEq, Prod.mk.injEq] at hl
  obtain ⟨htasks, htwo, hthree⟩ := hl
  have heq := h _ s hs 2 (by rw [htasks]; decide) 3 (by rw [htasks]; decide) (htwo.trans hthree.symm)
  exact absurd heq (by decide)

end MoltarOS.Sched
