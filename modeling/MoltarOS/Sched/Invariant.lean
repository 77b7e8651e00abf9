import MoltarOS.Sched.Typing

/-!
# The invariant of the scheduler

For a `LOG_LEVEL` above `LEVEL_TRACE`, where the log calls of the scheduler are filtered.
`Data` is what holds between any two statements: tasks have stacks of their own, and the
progress of each task that is not running is stored, is what was last recorded for it, and
is where its stack is found again. `Holds` is what a stage adds.

`inv_of_run` says that the invariant holds in every state of every run.
-/

namespace MoltarOS.Sched

open MoltarOS.Lib
open MoltarOS.Mm (PAGE_SIZE)

/-! ### What holds -/

namespace State

/-- What was last captured by a task, or set up for it. -/
def lastStored (s : State) (u : TaskRef) : Option Context := (s.stored.find? (·.1 = u)).map (·.2)

/-- The progress of `u` is stored as `ctx`, which leads to its own stack. -/
structure Parked (s : State) (u : TaskRef) (ctx : Context) : Prop where
  /-- It is stored. -/
  context : (s.task u).context = ctx
  /-- It is on the task's stack. -/
  page : InPage (s.task u).stackStart ctx.esp
  /-- The stack is there, and can be executed. -/
  image : ∃ k st, s.image ctx = some (u, st) ∧ StackOk u k .free st

/-- What holds at every stage. -/
structure Data (s : State) : Prop where
  /-- No task is twice in the list. -/
  nodup : s.tasks.Nodup
  /-- The running task is in the list. -/
  owner_mem : s.owner ∈ s.tasks
  /-- So is `current`. -/
  current_mem : s.current ∈ s.tasks
  /-- The stacks are pages. -/
  fits : ∀ u ∈ s.tasks, (s.task u).stackStart.toNat + PAGE_SIZE.toNat ≤ 2 ^ 32
  /-- The stacks are apart. -/
  apart : ∀ u ∈ s.tasks, ∀ v ∈ s.tasks, u ≠ v → PagesApart (s.task u).stackStart (s.task v).stackStart
  /-- Only tasks in the list have been recorded. -/
  known : ∀ r ∈ s.stored, r.1 ∈ s.tasks
  /-- What was recorded of a task that is not running is its progress. -/
  parked : ∀ u ∈ s.tasks, u ≠ s.owner → ∀ ctx, s.lastStored u = some ctx → s.Parked u ctx

/-- All tasks but the one running, and but the one in `except`, are complete. -/
def Complete (s : State) (except : TaskRef → Prop) : Prop :=
  ∀ u ∈ s.tasks, u ≠ s.owner → ¬ except u → (s.lastStored u).isSome

/-- A page for a new stack. -/
def PageFree (s : State) (p : UInt32) : Prop :=
  p.toNat + PAGE_SIZE.toNat ≤ 2 ^ 32 ∧ ∀ u ∈ s.tasks, PagesApart p (s.task u).stackStart

/-- Interrupts are disabled and nothing is pending. -/
def Masked (s : State) : Prop := s.flag = false ∧ s.current = s.owner ∧ s.Complete fun _ => False

/-- The child is in the list and not complete. -/
def Linked (s : State) (c : TaskRef) : Prop :=
  s.flag = false ∧ s.current = s.owner ∧ c ∈ s.tasks ∧ c ≠ s.owner ∧ s.lastStored c = none ∧ s.Complete (· = c)

/-- What holds at a stage. -/
def Holds (s : State) : Stage → Prop
  | .free => s.current = s.owner ∧ s.Complete fun _ => False
  | .masked => s.Masked
  | .building c => s.Masked ∧ c ∉ s.tasks
  | .staged c p => s.Masked ∧ c ∉ s.tasks ∧ s.PageFree p
  | .stacked c => s.Masked ∧ c ∉ s.tasks ∧ s.PageFree (s.task c).stackStart
  | .linked c => s.Linked c
  | .filling c ctx n => s.Linked c ∧ InPage (s.task c).stackStart ctx.esp ∧
      (∃ k st, s.image ctx = some (c, st) ∧ StackOk c k .free st) ∧
      (1 ≤ n → (s.task c).esp = ctx.esp) ∧ (2 ≤ n → (s.task c).ebp = ctx.ebp)
  | .swap ctx n => (s.flag = false ∧ s.Complete fun _ => False) ∧
      s.lastStored s.owner = some ctx ∧ InPage (s.task s.owner).stackStart ctx.esp ∧
      (∃ k st, s.image ctx = some (s.owner, st) ∧ StackOk s.owner k .free st) ∧
      (1 ≤ n → (s.task s.owner).eip = ctx.eip) ∧ (2 ≤ n → (s.task s.owner).esp = ctx.esp) ∧
      (3 ≤ n → (s.task s.owner).ebp = ctx.ebp)

/-- **The invariant.** -/
structure Inv (s : State) : Prop where
  /-- What holds at every stage. -/
  data : s.Data
  /-- The stack can be executed from a stage that the state is at. -/
  stage : ∃ k σ, StackOk s.owner k σ s.stack ∧ s.Holds σ

/-! ### States that differ in nothing that matters -/

/-- The states differ at most in the flag, the stack, and the ticks and ids of tasks. -/
structure Like (s t : State) : Prop where
  tasks : t.tasks = s.tasks
  owner : t.owner = s.owner
  current : t.current = s.current
  stored : t.stored = s.stored
  image : t.image = s.image
  context : ∀ u, (t.task u).context = (s.task u).context
  stackStart : ∀ u, (t.task u).stackStart = (s.task u).stackStart

variable {s t : State} {c : TaskRef} {σ : Stage}

theorem lastStored_eq (h : t.stored = s.stored) (u : TaskRef) : t.lastStored u = s.lastStored u := by
  rw [lastStored, lastStored, h]

theorem Complete.congr {except : TaskRef → Prop} (h : s.Complete except) (htasks : t.tasks = s.tasks)
    (howner : t.owner = s.owner) (hstored : t.stored = s.stored) : t.Complete except := by
  intro u hu hne hex
  rw [lastStored_eq hstored]
  exact h u (htasks ▸ hu) (howner ▸ hne) hex

/-- Only the tasks in the list matter to `Data`. -/
theorem Data.congr (h : s.Data) (htasks : t.tasks = s.tasks) (howner : t.owner = s.owner)
    (hcurrent : t.current ∈ s.tasks) (hstored : t.stored = s.stored) (himage : t.image = s.image)
    (hcontext : ∀ u ∈ s.tasks, u ≠ s.owner → (t.task u).context = (s.task u).context)
    (hstack : ∀ u ∈ s.tasks, (t.task u).stackStart = (s.task u).stackStart) : t.Data := by
  refine ⟨htasks ▸ h.nodup, ?_, htasks ▸ hcurrent, ?_, ?_, ?_, ?_⟩
  · rw [htasks, howner]
    exact h.owner_mem
  · intro u hu
    rw [htasks] at hu
    rw [hstack u hu]
    exact h.fits u hu
  · intro u hu v hv
    rw [htasks] at hu hv
    rw [hstack u hu, hstack v hv]
    exact h.apart u hu v hv
  · rw [hstored, htasks]
    exact h.known
  · intro u hu hne ctx hctx
    rw [htasks] at hu
    rw [howner] at hne
    rw [lastStored_eq hstored] at hctx
    obtain ⟨hc, hp, hi⟩ := h.parked u hu hne ctx hctx
    exact ⟨by rw [hcontext u hu hne, hc], by rw [hstack u hu]; exact hp, by rw [himage]; exact hi⟩

theorem Like.data (h : Like s t) (hs : s.Data) : t.Data :=
  hs.congr h.tasks h.owner (h.current ▸ hs.current_mem) h.stored h.image (fun u _ _ => h.context u) fun u _ =>
    h.stackStart u

theorem Like.complete (h : Like s t) {except : TaskRef → Prop} (hs : s.Complete except) : t.Complete except :=
  hs.congr h.tasks h.owner h.stored

theorem Like.free (h : Like s t) (hs : s.Holds .free) : t.Holds .free :=
  ⟨by rw [h.current, h.owner]; exact hs.1, h.complete hs.2⟩

theorem Like.masked (h : Like s t) (hf : t.flag = false) (hs : s.Holds .free) : t.Holds .masked :=
  ⟨hf, h.free hs⟩

theorem Like.linked (h : Like s t) (hf : t.flag = s.flag) (hs : s.Linked c) : t.Linked c := by
  obtain ⟨h1, h2, h3, h4, h5, h6⟩ := hs
  refine ⟨hf.trans h1, by rw [h.current, h.owner]; exact h2, by rw [h.tasks]; exact h3, by rw [h.owner]; exact h4, ?_,
    h.complete h6⟩
  rw [lastStored_eq h.stored, h5]

theorem Like.pageFree (h : Like s t) {p : UInt32} (hs : s.PageFree p) : t.PageFree p := by
  refine ⟨hs.1, fun u hu => ?_⟩
  rw [h.stackStart]
  exact hs.2 u (h.tasks ▸ hu)

/-- A state that is alike is at the same stage. -/
theorem Like.holds (h : Like s t) (hf : t.flag = s.flag) (hs : s.Holds σ) : t.Holds σ := by
  have heip : ∀ u, (t.task u).eip = (s.task u).eip := fun u => congrArg Context.eip (h.context u)
  have hesp : ∀ u, (t.task u).esp = (s.task u).esp := fun u => congrArg Context.esp (h.context u)
  have hebp : ∀ u, (t.task u).ebp = (s.task u).ebp := fun u => congrArg Context.ebp (h.context u)
  cases σ with
  | free => exact h.free hs
  | masked => exact h.masked (hf.trans hs.1) hs.2
  | building c => exact ⟨h.masked (hf.trans hs.1.1) hs.1.2, h.tasks ▸ hs.2⟩
  | staged c p => exact ⟨h.masked (hf.trans hs.1.1) hs.1.2, h.tasks ▸ hs.2.1, h.pageFree hs.2.2⟩
  | stacked c =>
    refine ⟨h.masked (hf.trans hs.1.1) hs.1.2, h.tasks ▸ hs.2.1, ?_⟩
    rw [h.stackStart]
    exact h.pageFree hs.2.2
  | linked c => exact h.linked hf hs
  | filling c ctx n =>
    refine ⟨h.linked hf hs.1, ?_⟩
    rw [h.stackStart, h.image, hesp, hebp]
    exact hs.2
  | swap ctx n =>
    refine ⟨⟨hf.trans hs.1.1, h.complete hs.1.2⟩, ?_⟩
    rw [h.owner, lastStored_eq h.stored, h.stackStart, h.image, heip, hesp, hebp]
    exact hs.2

/-- Interrupts are enabled only where nothing is pending. -/
theorem Holds.eq_free (h : s.Holds σ) (hf : s.flag = true) : σ = .free := by
  have hne : s.flag ≠ false := by rw [hf]; decide
  cases σ with
  | free => rfl
  | masked => exact absurd h.1 hne
  | building c | staged c p | stacked c => exact absurd h.1.1 hne
  | linked c => exact absurd h.1 hne
  | filling c ctx n => exact absurd h.1.1 hne
  | swap ctx n => exact absurd h.1.1 hne

/-- A frame that can end at a stage ends with nothing pending. -/
theorem Holds.of_typed_nil {o : TaskRef} {k : Kind} (h : s.Holds σ) (ht : Typed o k σ []) : s.Holds .free := by
  rcases typed_nil.mp ht with rfl | rfl
  · exact h
  · exact h.2

theorem Like.inv (h : Like s t) (hs : s.Data) {k : Kind} (hstack : StackOk s.owner k σ t.stack)
    (hσ : t.Holds σ) : t.Inv :=
  ⟨h.data hs, k, σ, h.owner ▸ hstack, hσ⟩

theorem like_goto (s : State) (stack : Stack) (flag : Bool) : Like s { s.goto stack with flag := flag } :=
  ⟨rfl, rfl, rfl, rfl, rfl, fun _ => rfl, fun _ => rfl⟩

/-- Changing the ticks or the id of a task. -/
theorem like_modify (s : State) (v : TaskRef) (f : Task → Task) (hc : (f (s.task v)).context = (s.task v).context)
    (hp : (f (s.task v)).stackStart = (s.task v).stackStart) (stack : Stack) : Like s ((s.goto stack).modify v f) := by
  refine ⟨rfl, rfl, rfl, rfl, rfl, fun u => ?_, fun u => ?_⟩
  · by_cases hu : u = v
    · subst hu
      simp only [modify, goto, Function.update_self, hc]
    · simp only [modify, goto, Function.update_of_ne hu]
  · by_cases hu : u = v
    · subst hu
      simp only [modify, goto, Function.update_self, hp]
    · simp only [modify, goto, Function.update_of_ne hu]

/-! ### Creating a child -/

theorem modify_task_of_ne (v : TaskRef) (f : Task → Task) {u : TaskRef} (h : u ≠ v) :
    (s.modify v f).task u = s.task u :=
  Function.update_of_ne h _ _

theorem modify_task_self (v : TaskRef) (f : Task → Task) : (s.modify v f).task v = f (s.task v) :=
  Function.update_self _ _ _

/-- A task that is not in the list may be changed in any way. -/
theorem Data.modify_outside (h : s.Data) (hc : c ∉ s.tasks) (f : Task → Task) (stack : Stack) :
    ((s.goto stack).modify c f).Data := by
  have hne : ∀ u ∈ s.tasks, u ≠ c := fun u hu he => hc (he ▸ hu)
  refine h.congr rfl rfl h.current_mem rfl rfl (fun u hu _ => ?_) fun u hu => ?_
  · rw [modify_task_of_ne c f (hne u hu)]
    rfl
  · rw [modify_task_of_ne c f (hne u hu)]
    rfl

theorem Masked.modify (h : s.Masked) (f : Task → Task) (stack : Stack) : ((s.goto stack).modify c f).Masked :=
  ⟨h.1, h.2.1, h.2.2.congr rfl rfl rfl⟩

theorem pageFree_modify_outside {p : UInt32} (h : s.PageFree p) (hc : c ∉ s.tasks) (f : Task → Task) (stack : Stack) :
    ((s.goto stack).modify c f).PageFree p := by
  refine ⟨h.1, fun u hu => ?_⟩
  have hne : u ≠ c := fun he => hc (he ▸ hu)
  rw [modify_task_of_ne c f hne]
  exact h.2 u hu

/-- The child gets its stack. -/
theorem setStackStart_inv {p : UInt32} (hd : s.Data) (hσ : s.Holds (.staged c p)) {k : Kind} {stack : Stack}
    (hstack : StackOk s.owner k (.stacked c) stack) :
    State.Inv ((s.goto stack).modify c fun t => { t with stackStart := p }) := by
  obtain ⟨hm, hc, hfree⟩ := hσ
  refine ⟨hd.modify_outside hc _ _, k, _, hstack, hm.modify _ _, hc, ?_⟩
  rw [modify_task_self]
  exact pageFree_modify_outside hfree hc _ _

theorem mem_listInsertAfter {l : List TaskRef} {p u : TaskRef} (hp : p ∈ l) :
    u ∈ listInsertAfter l p c ↔ u = c ∨ u ∈ l := by
  induction l with
  | nil => cases hp
  | cons x l ih =>
    rw [listInsertAfter]
    split_ifs with hx
    · simp only [List.mem_cons]
      tauto
    · have hp' : p ∈ l := (List.mem_cons.mp hp).resolve_left (Ne.symm hx)
      simp only [List.mem_cons, ih hp']
      tauto

theorem nodup_listInsertAfter {l : List TaskRef} {p : TaskRef} (h : l.Nodup) (hp : p ∈ l) (hc : c ∉ l) :
    (listInsertAfter l p c).Nodup := by
  induction l with
  | nil => cases hp
  | cons x l ih =>
    obtain ⟨hx, hl⟩ := List.nodup_cons.mp h
    have hxc : c ≠ x := fun he => hc (he ▸ List.mem_cons_self)
    have hcl : c ∉ l := fun he => hc (List.mem_cons_of_mem x he)
    rw [listInsertAfter]
    split_ifs with he
    · refine List.nodup_cons.mpr ⟨fun hmem => ?_, List.nodup_cons.mpr ⟨hcl, hl⟩⟩
      exact (List.mem_cons.mp hmem).elim (fun h => hxc h.symm) hx
    · have hp' : p ∈ l := (List.mem_cons.mp hp).resolve_left (Ne.symm he)
      refine List.nodup_cons.mpr ⟨fun hmem => ?_, ih hl hp' hcl⟩
      exact ((mem_listInsertAfter hp').mp hmem).elim (fun h => hxc h.symm) hx

/-- A task that is not in the list has never been recorded. -/
theorem Data.lastStored_eq_none (h : s.Data) (hc : c ∉ s.tasks) : s.lastStored c = none := by
  rw [lastStored, Option.map_eq_none_iff, List.find?_eq_none]
  intro r hr he
  exact hc (of_decide_eq_true he ▸ h.known r hr)

theorem insertAfter_inv (hd : s.Data) (hσ : s.Holds (.stacked c)) {k : Kind} {stack : Stack}
    (hstack : StackOk s.owner k (.linked c) stack) :
    State.Inv { s.goto stack with tasks := listInsertAfter s.tasks s.owner c } := by
  obtain ⟨⟨hflag, hcur, hcomplete⟩, hc, hfit, hfree⟩ := hσ
  have hmem : ∀ u, u ∈ listInsertAfter s.tasks s.owner c ↔ u = c ∨ u ∈ s.tasks := fun u =>
    mem_listInsertAfter hd.owner_mem
  have hnone := hd.lastStored_eq_none hc
  refine ⟨⟨nodup_listInsertAfter hd.nodup hd.owner_mem hc, (hmem _).mpr (Or.inr hd.owner_mem),
    (hmem _).mpr (Or.inr hd.current_mem), ?_, ?_, fun r hr => (hmem _).mpr (Or.inr (hd.known r hr)), ?_⟩, k, _, hstack,
    hflag, hcur, (hmem c).mpr (Or.inl rfl), fun he => hc (he ▸ hd.owner_mem), hnone, ?_⟩
  · intro u hu
    rcases (hmem u).mp hu with rfl | hu
    exacts [hfit, hd.fits u hu]
  · intro u hu v hv hne
    rcases (hmem u).mp hu with hu' | hu' <;> rcases (hmem v).mp hv with hv' | hv'
    · exact absurd (hu'.trans hv'.symm) hne
    · rw [hu']
      exact hfree v hv'
    · rw [hv']
      exact (hfree u hu').symm
    · exact hd.apart u hu' v hv' hne
  · intro u hu hne ctx hctx
    rcases (hmem u).mp hu with rfl | hu
    · cases hnone.symm.trans hctx
    · obtain ⟨h1, h2, h3⟩ := hd.parked u hu hne ctx hctx
      exact ⟨h1, h2, h3⟩
  · intro u hu hne hex
    rcases (hmem u).mp hu with rfl | hu
    · exact absurd rfl hex
    · exact hcomplete u hu hne fun h => h

/-- While a child is linked but not complete, its registers may be changed. -/
theorem Data.modify_linked (h : s.Data) (hl : s.Linked c) (f : Task → Task)
    (hp : (f (s.task c)).stackStart = (s.task c).stackStart) (stack : Stack) : ((s.goto stack).modify c f).Data := by
  obtain ⟨-, -, -, -, hnone, -⟩ := hl
  have hstart : ∀ u, (((s.goto stack).modify c f).task u).stackStart = (s.task u).stackStart := fun u => by
    by_cases hu : u = c
    · subst hu
      rw [modify_task_self]
      exact hp
    · rw [modify_task_of_ne c f hu]
      rfl
  refine ⟨h.nodup, h.owner_mem, h.current_mem, fun u hu => ?_, fun u hu v hv hne => ?_, h.known,
    fun u hu hne ctx hctx => ?_⟩
  · rw [hstart]
    exact h.fits u hu
  · rw [hstart, hstart]
    exact h.apart u hu v hv hne
  · have huc : u ≠ c := by
      rintro rfl
      cases hnone.symm.trans hctx
    obtain ⟨h1, h2, h3⟩ := h.parked u hu hne ctx hctx
    refine ⟨?_, by rw [hstart]; exact h2, h3⟩
    rw [modify_task_of_ne c f huc]
    exact h1

theorem Linked.modify (h : s.Linked c) (f : Task → Task) (stack : Stack) : ((s.goto stack).modify c f).Linked c :=
  ⟨h.1, h.2.1, h.2.2.1, h.2.2.2.1, h.2.2.2.2.1, h.2.2.2.2.2.congr rfl rfl rfl⟩

/-- Filling in registers of the child. -/
theorem Holds.fill {ctx : Context} {n m : ℕ} (h : s.Holds (.filling c ctx n)) (f : Task → Task)
    (hp : (f (s.task c)).stackStart = (s.task c).stackStart) (stack : Stack)
    (hesp : 1 ≤ m → (f (s.task c)).esp = ctx.esp) (hebp : 2 ≤ m → (f (s.task c)).ebp = ctx.ebp) :
    ((s.goto stack).modify c f).Holds (.filling c ctx m) := by
  obtain ⟨hl, hpage, himage, -⟩ := h
  have hself : ((s.goto stack).modify c f).task c = f (s.task c) := modify_task_self c f
  refine ⟨hl.modify f stack, ?_, himage, ?_⟩
  · rw [← hp, ← hself] at hpage
    exact hpage
  · rw [← hself] at hesp hebp
    exact ⟨hesp, hebp⟩

theorem lastStored_of_cons {u : TaskRef} {ctx : Context} {l : List (TaskRef × Context)} (h : t.stored = (u, ctx) :: l) :
    t.lastStored u = some ctx := by
  simp [lastStored, h]

theorem lastStored_of_cons_ne {u v : TaskRef} {ctx : Context} (h : t.stored = (u, ctx) :: s.stored) (hne : v ≠ u) :
    t.lastStored v = s.lastStored v := by
  simp [lastStored, h, Ne.symm hne]

/-- The child is complete. -/
theorem setEip_inv {ctx : Context} (hd : s.Data) (hσ : s.Holds (.filling c ctx 2)) {k : Kind} {stack : Stack}
    (hstack : StackOk s.owner k .masked stack) : ((s.goto stack).setEip c ctx.eip).Inv := by
  obtain ⟨hl, hpage, himage, hesp, hebp⟩ := hσ
  have hd' := hd.modify_linked hl (fun t => { t with eip := ctx.eip }) rfl stack
  have hl' := hl.modify (fun t => { t with eip := ctx.eip }) stack
  have htask : ((s.goto stack).setEip c ctx.eip).task c = { s.task c with eip := ctx.eip } :=
    Function.update_self c _ s.task
  have hctx : (((s.goto stack).setEip c ctx.eip).task c).context = ctx := by
    rw [htask]
    exact Context.ext rfl (hesp (by decide)) (hebp le_rfl)
  have hstored : ((s.goto stack).setEip c ctx.eip).stored = (c, ctx) :: s.stored :=
    congrArg (fun x => (c, x) :: s.stored) hctx
  refine ⟨⟨hd'.nodup, hd'.owner_mem, hd'.current_mem, hd'.fits, hd'.apart, ?_, fun u hu hne ctx' hctx' => ?_⟩,
    k, _, hstack, hl'.1, hl'.2.1, fun u hu hne _ => ?_⟩
  · rw [hstored]
    rintro r (_ | ⟨_, hr⟩)
    exacts [hl'.2.2.1, hd'.known r hr]
  · by_cases huc : u = c
    · subst huc
      rw [lastStored_of_cons hstored, Option.some.injEq] at hctx'
      subst hctx'
      exact ⟨hctx, by rw [htask]; exact hpage, himage⟩
    · rw [lastStored_of_cons_ne hstored huc] at hctx'
      obtain ⟨h1, h2, h3⟩ := hd'.parked u hu hne ctx' hctx'
      exact ⟨h1, h2, h3⟩
  · by_cases huc : u = c
    · rw [huc, lastStored_of_cons hstored]
      rfl
    · rw [lastStored_of_cons_ne hstored huc]
      exact hl'.2.2.2.2.2 u hu hne huc

/-! ### Switching -/

theorem mem_of_listNext {l : List TaskRef} {u v : TaskRef} (h : listNext l u = some v) : v ∈ l :=
  (List.dropWhile_suffix _).subset (List.mem_of_mem_tail (List.mem_of_mem_head? h))

theorem Data.successor_mem (h : s.Data) : s.successor ∈ s.tasks := by
  rw [successor]
  cases hnext : listNext s.tasks s.current with
  | some v => exact mem_of_listNext hnext
  | none =>
    cases htasks : s.tasks with
    | nil => exact absurd (htasks ▸ h.owner_mem) List.not_mem_nil
    | cons u us => exact List.mem_cons_self

/-- While the running task's registers are stored. -/
theorem Data.modify_owner (h : s.Data) (f : Task → Task)
    (hp : (f (s.task s.owner)).stackStart = (s.task s.owner).stackStart) (stack : Stack) :
    ((s.goto stack).modify s.owner f).Data := by
  refine h.congr rfl rfl h.current_mem rfl rfl (fun u _ hne => ?_) fun u _ => ?_
  · rw [modify_task_of_ne s.owner f hne]
    rfl
  · by_cases hu : u = s.owner
    · subst hu
      rw [modify_task_self]
      exact hp
    · rw [modify_task_of_ne s.owner f hu]
      rfl

/-- **The registers loaded are those last recorded**, and lead to the task's own stack. -/
theorem perform_spec {ctx : Context} (hd : s.Data) (hσ : s.Holds (.swap ctx 3)) :
    s.Parked s.owner ctx ∧ ∀ u ∈ s.tasks, ∃ ctx', s.lastStored u = some ctx' ∧ s.Parked u ctx' := by
  obtain ⟨⟨-, hcomplete⟩, hlast, hpage, himage, heip, hesp, hebp⟩ := hσ
  have howner : s.Parked s.owner ctx :=
    ⟨Context.ext (heip (by decide)) (hesp (by decide)) (hebp le_rfl), hpage, himage⟩
  refine ⟨howner, fun u hu => ?_⟩
  by_cases hne : u = s.owner
  · rw [hne]
    exact ⟨ctx, hlast, howner⟩
  · obtain ⟨ctx', hctx'⟩ := Option.isSome_iff_exists.mp (hcomplete u hu hne fun h => h)
    exact ⟨ctx', hctx', hd.parked u hu hne ctx' hctx'⟩

theorem perform_inv {ctx : Context} (hd : s.Data) (hσ : s.Holds (.swap ctx 3)) {u : TaskRef} {stack : Stack}
    (himage : s.image (s.task s.current).context = some (u, stack)) :
    State.Inv { s with flag := true, stack := stack, owner := u } := by
  obtain ⟨-, hall⟩ := perform_spec hd hσ
  obtain ⟨ctx', -, hcontext, -, k, st, hst, hok⟩ := hall s.current hd.current_mem
  rw [hcontext, hst, Option.some.injEq, Prod.mk.injEq] at himage
  obtain ⟨rfl, rfl⟩ := himage
  refine ⟨⟨hd.nodup, hd.current_mem, hd.current_mem, hd.fits, hd.apart, hd.known, fun v hv _ ctx'' hctx'' => ?_⟩,
    k, _, hok, rfl, fun v hv _ _ => ?_⟩
  · obtain ⟨c'', h1, h2, h3, h4⟩ := hall v hv
    cases h1.symm.trans hctx''
    exact ⟨h2, h3, h4⟩
  · obtain ⟨c'', h1, -⟩ := hall v hv
    exact Option.isSome_iff_exists.mpr ⟨c'', h1⟩

/-- A new image on the stack of `u` leaves those of the other tasks. -/
theorem Parked.update {u v : TaskRef} {ctx ctx' : Context} {x : TaskRef × Stack} (h : s.Parked v ctx')
    (hp : InPage (s.task u).stackStart ctx.esp) (hapart : PagesApart (s.task u).stackStart (s.task v).stackStart)
    (himage : t.image = Function.update s.image ctx (some x)) (htask : t.task = s.task) : t.Parked v ctx' := by
  obtain ⟨h1, h2, k, st, h3, h4⟩ := h
  have hne : ctx' ≠ ctx := fun he => hapart.not_inPage hp (he ▸ h2)
  rw [← Function.update_of_ne hne (some x) s.image, ← himage] at h3
  exact ⟨by rw [htask]; exact h1, by rw [htask]; exact h2, k, st, h3, h4⟩

theorem captured_inv {cfg : Config} (hd : s.Data) (hσ : s.Holds .masked) {rest : Frame} {lower : Stack}
    {esp ebp : UInt32} (hpage : InPage (s.task s.owner).stackStart esp) (hrest : Typed s.owner .handler .free rest)
    (hbelow : Below s.owner .handler lower) : (s.captured cfg s.owner esp ebp rest lower).Inv := by
  rw [captured, if_pos cfg.switch_ne]
  have hok := stackOk_cons.mpr ⟨hrest, hbelow⟩
  refine ⟨⟨hd.nodup, hd.owner_mem, hd.current_mem, hd.fits, hd.apart, ?_, fun u hu hne ctx hctx => ?_⟩, .handler,
    .swap ⟨cfg.switchEip, esp, ebp⟩ 0, stackOk_cons.mpr ⟨(runs_switchRest _).typed hrest, hbelow⟩,
    ⟨hσ.1, fun u hu hne hex => ?_⟩, lastStored_of_cons rfl, hpage, ⟨_, _, Function.update_self _ _ _, hok⟩,
    by simp, by simp, by simp⟩
  · rintro r (_ | ⟨_, hr⟩)
    exacts [hd.owner_mem, hd.known r hr]
  · rw [lastStored_of_cons_ne rfl hne] at hctx
    exact (hd.parked u hu hne ctx hctx).update hpage (hd.apart _ hd.owner_mem u hu (Ne.symm hne)) rfl rfl
  · rw [lastStored_of_cons_ne rfl hne]
    exact hσ.2.2 u hu hne hex

theorem configured_inv {cfg : Config} (hd : s.Data) (hσ : s.Holds (.linked c)) {rest : Frame} {lower : Stack}
    {esp ebp : UInt32} (hpage : InPage (s.task s.owner).stackStart esp) (hrest : Typed s.owner .call .free rest)
    (hbelow : Below s.owner .call lower) : (s.configured cfg c s.owner esp ebp rest lower).Inv := by
  obtain ⟨hflag, hcur, hc, hne, hnone, hcomplete⟩ := hσ
  have hpage' : InPage (s.task c).stackStart ((s.task c).stackStart - (s.task s.owner).stackStart + esp) := by
    rw [UInt32.add_comm]
    exact inPage_move (hd.fits c hc) hpage
  have hok := stackOk_child hbelow (Ne.symm hne)
  refine ⟨⟨hd.nodup, hd.owner_mem, hd.current_mem, hd.fits, hd.apart, hd.known, fun u hu huo ctx hctx => ?_⟩, .call,
    .filling c ⟨cfg.createEip, _, _⟩ 0, stackOk_cons.mpr ⟨(runs_setupRest _).typed hrest, hbelow⟩,
    ⟨hflag, hcur, hc, hne, hnone, hcomplete⟩, hpage', ⟨_, _, Function.update_self _ _ _, hok⟩, by simp, by simp⟩
  have huc : u ≠ c := by
    rintro rfl
    cases hnone.symm.trans hctx
  exact (hd.parked u hu huo ctx hctx).update hpage' (hd.apart c hc u hu (Ne.symm huc)) rfl rfl

/-- Storing registers of the running task. -/
theorem Holds.save {ctx : Context} {n m : ℕ} (h : s.Holds (.swap ctx n)) (f : Task → Task)
    (hp : (f (s.task s.owner)).stackStart = (s.task s.owner).stackStart) (stack : Stack)
    (heip : 1 ≤ m → (f (s.task s.owner)).eip = ctx.eip) (hesp : 2 ≤ m → (f (s.task s.owner)).esp = ctx.esp)
    (hebp : 3 ≤ m → (f (s.task s.owner)).ebp = ctx.ebp) : ((s.goto stack).modify s.owner f).Holds (.swap ctx m) := by
  obtain ⟨hm, hlast, hpage, himage, -⟩ := h
  have hself : ((s.goto stack).modify s.owner f).task s.owner = f (s.task s.owner) := modify_task_self s.owner f
  refine ⟨hm, hlast, ?_, himage, ?_⟩
  · rw [← hp, ← hself] at hpage
    exact hpage
  · rw [← hself] at heip hesp hebp
    exact ⟨heip, hesp, hebp⟩

/-! ### Steps -/

/-- Where a state is when the next statement is `i`. -/
theorem Inv.top (h : s.Inv) {i : Instr} {rest : Frame} {lower : Stack} (hstack : s.stack = (i :: rest) :: lower) :
    ∃ k σ ρ, s.Holds σ ∧ Moves s.owner k i σ ρ ∧ Typed s.owner k ρ rest ∧ Below s.owner k lower := by
  obtain ⟨-, k, σ, hok, hσ⟩ := h
  rw [hstack, stackOk_cons, typed_cons] at hok
  obtain ⟨⟨ρ, hi, hrest⟩, hbelow⟩ := hok
  exact ⟨k, σ, ρ, hσ, hi, hrest, hbelow⟩

section

variable {cfg : Config} (hlevel : LEVEL_TRACE < cfg.level)

include hlevel

/-- A statement that leaves nothing open. -/
theorem execute_inv (h : s.Inv) {i : Instr} {rest : Frame} {lower : Stack} (hstack : s.stack = (i :: rest) :: lower)
    (he : s.execute cfg rest lower i = some t) : t.Inv := by
  obtain ⟨k, σ, ρ, hσ, hi, hrest, hbelow⟩ := h.top hstack
  have hd := h.data
  have hgo : StackOk s.owner k ρ (rest :: lower) := stackOk_cons.mpr ⟨hrest, hbelow⟩
  cases hi <;> simp only [execute, Option.some.injEq, reduceCtorEq] at he
  case print | readEip =>
    subst he
    exact (like_goto s _ s.flag).inv hd hgo hσ
  case trace =>
    rw [if_neg (Nat.not_le.mpr hlevel), Option.some.injEq] at he
    subst he
    exact (like_goto s _ s.flag).inv hd (stackOk_cons.mpr ⟨typed_cons.mpr ⟨_, .print, hrest⟩, hbelow⟩) hσ
  case cli =>
    subst he
    exact (like_goto s _ false).inv hd hgo ((like_goto s _ false).masked rfl hσ)
  case klog =>
    subst he
    refine (like_goto s _ s.flag).inv hd (stackOk_cons.mpr ⟨typed_klog, ?_⟩) hσ
    rintro g (_ | ⟨_, hg⟩)
    exacts [hrest, hbelow g hg]
  case halt =>
    subst he
    exact h
  case sti =>
    subst he
    exact (like_goto s _ true).inv hd hgo ((like_goto s _ true).free hσ.2)
  case stiFree =>
    subst he
    exact (like_goto s _ true).inv hd hgo ((like_goto s _ true).free hσ)
  case clearTicks =>
    subst he
    have hlike := like_modify s s.current (fun t => { t with ticks := 0 }) rfl rfl (rest :: lower)
    exact hlike.inv hd hgo (hlike.holds rfl hσ)
  case refill =>
    subst he
    have hlike := like_modify s s.current (fun t => { t with ticks := TICKS_PER_SLICE }) rfl rfl (rest :: lower)
    exact hlike.inv hd hgo (hlike.holds rfl hσ)
  case int255 =>
    subst he
    exact (like_goto s _ false).inv hd (stackOk_cons.mpr ⟨typed_handler _, .call, hgo⟩) hσ
  case memset c =>
    subst he
    exact ⟨hd.modify_outside hσ.2 _ _, .call, _, hgo, hσ.1.modify _ _, hσ.2⟩
  case readParent c =>
    subst he
    have hcur : s.current = s.owner := hσ.1.2.1
    rw [hcur]
    exact (like_goto s _ s.flag).inv hd (stackOk_cons.mpr ⟨runs_threadCreateRest.typed hrest, hbelow⟩) hσ
  case setId c =>
    subst he
    have hlike := like_modify s c (fun t => { t with id := (s.task s.owner).id + 1 }) rfl rfl (rest :: lower)
    exact hlike.inv hd hgo (hlike.holds rfl hσ)
  case setStackStart c p =>
    subst he
    exact setStackStart_inv hd hσ hgo
  case insertAfter c =>
    subst he
    exact insertAfter_inv hd hσ hgo
  case parent c =>
    have hcur : s.current = s.owner := hσ.2.1
    rw [if_pos hcur, Option.some.injEq] at he
    subst he
    have hbranch : Typed s.owner .call (.linked c) (KTRACE :: .readRegs c s.owner :: rest) :=
      typed_cons.mpr ⟨_, .trace, typed_cons.mpr ⟨_, .readRegs, hrest⟩⟩
    exact (like_goto s _ s.flag).inv hd (stackOk_cons.mpr ⟨hbranch, hbelow⟩) hσ
  case child p hp =>
    have hcur : s.current = s.owner := hσ.1
    rw [hcur, if_neg (Ne.symm hp), Option.some.injEq] at he
    subst he
    have hbranch : Typed s.owner .call .free (.sti :: .callTask :: rest) :=
      typed_cons.mpr ⟨_, .stiFree, typed_cons.mpr ⟨_, .callTask, hrest⟩⟩
    exact (like_goto s _ s.flag).inv hd (stackOk_cons.mpr ⟨hbranch, hbelow⟩) hσ
  case setEsp c ctx =>
    subst he
    exact ⟨hd.modify_linked hσ.1 _ rfl _, .call, _, hgo, hσ.fill _ rfl _ (fun _ => rfl) (by simp)⟩
  case setEbp c ctx =>
    subst he
    have hesp := hσ.2.2.2.1
    exact ⟨hd.modify_linked hσ.1 _ rfl _, .call, _, hgo, hσ.fill _ rfl _ (fun _ => hesp le_rfl) fun _ => rfl⟩
  case setEip c ctx =>
    subst he
    exact setEip_inv hd hσ hgo
  case callTask =>
    subst he
    refine (like_goto s _ s.flag).inv hd (stackOk_cons (k := .base).mpr ⟨typed_user, ?_⟩) hσ
    rintro g (_ | ⟨_, hg⟩)
    exacts [typed_kpanic, hbelow g hg]
  case taskSwitch =>
    split_ifs at he with hticks
    · rw [Option.some.injEq] at he
      subst he
      have hlike := like_modify s s.current (fun t => { t with ticks := t.ticks - 1 }) rfl rfl (rest :: lower)
      exact hlike.inv hd hgo (hlike.free hσ.2)
    · rw [Option.some.injEq] at he
      subst he
      have hcur : s.current = s.owner := hσ.2.1
      rw [hcur]
      exact (like_goto s _ s.flag).inv hd (stackOk_cons.mpr ⟨typed_cons.mpr ⟨_, .capture, hrest⟩, hbelow⟩) hσ
  case advance ctx =>
    subst he
    exact ⟨hd.congr rfl rfl hd.successor_mem rfl rfl (fun _ _ _ => rfl) fun _ _ => rfl, .handler, _, hgo, hσ⟩
  case saveEip ctx =>
    subst he
    exact ⟨hd.modify_owner _ rfl _, .handler, _, hgo, hσ.save _ rfl _ (fun _ => rfl) (by simp) (by simp)⟩
  case saveEsp ctx =>
    subst he
    have heip := hσ.2.2.2.2.1
    exact ⟨hd.modify_owner _ rfl _, .handler, _, hgo, hσ.save _ rfl _ (fun _ => heip le_rfl) (fun _ => rfl) (by simp)⟩
  case saveEbp ctx =>
    subst he
    obtain ⟨heip, hesp, -⟩ := hσ.2.2.2.2
    exact ⟨hd.modify_owner _ rfl _, .handler, _, hgo,
      hσ.save _ rfl _ (fun _ => heip (by decide)) (fun _ => hesp le_rfl) fun _ => rfl⟩
  case perform ctx =>
    rw [Option.map_eq_some_iff] at he
    obtain ⟨⟨u, stack⟩, himage, rfl⟩ := he
    exact perform_inv hd hσ himage
  case iret b =>
    subst he
    exact (like_goto s _ b).inv hd hgo ((like_goto s _ b).free hσ)

end

/-- The task's own code. -/
theorem userStep_inv (h : s.Inv) {rest : Frame} {lower : Stack} (hstack : s.stack = (.user :: rest) :: lower)
    (a : UserAct) :
    (s.userStep rest lower a).Inv := by
  obtain ⟨k, σ, ρ, hσ, hi, hrest, hbelow⟩ := h.top hstack
  have hd := h.data
  cases hi
  -- a call may be put on top
  have hcall : ∀ g ∈ (.user :: rest) :: lower, Typed s.owner .base .free g := by
    rintro g (_ | ⟨_, hg⟩)
    exacts [typed_cons.mpr ⟨_, .user, hrest⟩, hbelow g hg]
  cases a with
  | cli => exact (like_goto s s.stack false).inv hd (hstack ▸ stackOk_base hcall) ((like_goto s s.stack false).free hσ)
  | sti => exact (like_goto s s.stack true).inv hd (hstack ▸ stackOk_base hcall) ((like_goto s s.stack true).free hσ)
  | yield => exact (like_goto s _ s.flag).inv hd ((stackOk_cons (k := .call)).mpr ⟨typed_yield, hcall⟩) hσ
  | threadCreate => exact (like_goto s _ s.flag).inv hd ((stackOk_cons (k := .call)).mpr ⟨typed_threadCreate, hcall⟩) hσ
  | ret => exact (like_goto s _ s.flag).inv hd ((stackOk_cons (k := .base)).mpr ⟨hrest, hbelow⟩) hσ

/-- An interrupt comes only where nothing is pending. -/
theorem interrupt_inv (h : s.Inv) (hf : s.flag = true) : s.interrupt.Inv := by
  obtain ⟨hd, k, σ, hok, hσ⟩ := h
  obtain rfl := hσ.eq_free hf
  exact (like_goto s _ false).inv hd ((stackOk_cons (k := .handler)).mpr ⟨typed_handler _, k, hok⟩) hσ

/-- **Every step keeps the invariant.** -/
theorem step_inv {cfg : Config} (hlevel : LEVEL_TRACE < cfg.level) (h : s.Inv) {a : Act} (hs : s.step cfg a = some t) :
    t.Inv := by
  have hd := h.data
  cases stepped_of_step hs with
  | timer hflag => exact interrupt_inv h hflag
  | done hstack =>
    obtain ⟨-, k, σ, hok, hσ⟩ := h
    rw [hstack, stackOk_cons] at hok
    obtain ⟨k', hlower⟩ := hok.2.stackOk
    exact (like_goto s _ s.flag).inv hd hlower (hσ.of_typed_nil hok.1)
  | execute hstack he => exact execute_inv hlevel h hstack he
  | user c hstack => exact userStep_inv h hstack c
  | kmalloc child grown hstack hfresh =>
    obtain ⟨k, σ, ρ, hσ, hi, hrest, hbelow⟩ := h.top hstack
    cases hi
    have hcode := (runs_taskNewRest (c := child) grown).typed hrest
    exact (like_goto s _ s.flag).inv hd (stackOk_cons.mpr ⟨hcode, hbelow⟩) ⟨hσ, hfresh⟩
  | page newStack redirected hstack hfree =>
    obtain ⟨k, σ, ρ, hσ, hi, hrest, hbelow⟩ := h.top hstack
    cases hi
    have hcode := (runs_copyStackRest newStack redirected).typed hrest
    exact (like_goto s _ s.flag).inv hd (stackOk_cons.mpr ⟨hcode, hbelow⟩) ⟨hσ.1, hσ.2, hfree⟩
  | panicNew hstack =>
    obtain ⟨k, σ, ρ, hσ, hi, hrest, hbelow⟩ := h.top hstack
    cases hi
    exact (like_goto s _ s.flag).inv hd ((stackOk_cons (k := .base)).mpr ⟨typed_kpanic, hbelow⟩) hσ.2
  | panicBlock hstack =>
    obtain ⟨k, σ, ρ, hσ, hi, hrest, hbelow⟩ := h.top hstack
    cases hi
    exact (like_goto s _ s.flag).inv hd ((stackOk_cons (k := .base)).mpr ⟨typed_kpanic, hbelow⟩) hσ.1.2
  | capture ebp hstack hpage =>
    obtain ⟨k, σ, ρ, hσ, hi, hrest, hbelow⟩ := h.top hstack
    cases hi
    exact captured_inv hd hσ hpage hrest hbelow
  | readRegs ebp hstack hpage =>
    obtain ⟨k, σ, ρ, hσ, hi, hrest, hbelow⟩ := h.top hstack
    cases hi
    exact configured_inv hd hσ hpage hrest hbelow

/-! ### Runs -/

theorem init_inv (root : TaskRef) (heap : TaskRef → Task) : (init root heap).Inv := by
  have hroot : ∀ u ∈ (init root heap).tasks, u = root := fun u hu => List.mem_singleton.mp hu
  have htask : (init root heap).task root = ⟨0, 0, 0, kernelStack, 0, TICKS_PER_SLICE⟩ := Function.update_self _ _ _
  refine ⟨⟨List.nodup_singleton root, List.mem_singleton.mpr rfl, List.mem_singleton.mpr rfl, fun u hu => ?_,
    fun u hu v hv hne => ?_, by simp [init], fun u hu hne => ?_⟩, .base, .free, ?_, rfl, fun u hu hne => ?_⟩
  · rw [hroot u hu, htask]
    decide
  · exact absurd ((hroot u hu).trans (hroot v hv).symm) hne
  · exact absurd (hroot u hu) hne
  · exact ⟨Or.inr ⟨_, .user, _, .cli, _, .halt, rfl⟩, by simp⟩
  · exact absurd (hroot u hu) hne

/-- **The invariant holds in every state of every run.** -/
theorem inv_of_run {cfg : Config} (hlevel : LEVEL_TRACE < cfg.level) {root : TaskRef} {heap : TaskRef → Task}
    {acts : List Act} (h : (schedMachine cfg).run (init root heap) acts = some s) : s.Inv :=
  (schedMachine cfg).invariant (fun _ _ _ hi hs => step_inv hlevel hi hs) (init_inv root heap) h

end State

end MoltarOS.Sched
