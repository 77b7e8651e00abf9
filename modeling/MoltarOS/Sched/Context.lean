import MoltarOS.Sched.Invariant

/-!
# Saved contexts

## What is proved

* `contexts_kept` — at the `LOG_LEVEL` of the repository, in every state of every run:
  a task that is selected is complete; the registers `perform_task_switch` loads are those
  that were last stored for the task, also when a lone task switches to itself; and no
  step changes the registers stored for a task that is not running.
-/

namespace MoltarOS.Sched

open MoltarOS.Lib

namespace State

variable {s t : State} {cfg : Config}

theorem modify_context_of_ne {u v : TaskRef} (f : Task → Task) (stack : Stack) (h : u ≠ v) :
    (((s.goto stack).modify v f).task u).context = (s.task u).context := by
  rw [modify_task_of_ne v f h]
  rfl

/-- A statement changes the registers only of the running task, of a task that is not in the list yet,
or of one that is not complete. -/
theorem execute_context (h : s.Inv) {i : Instr} {rest : Frame} {lower : Stack} (hstack : s.stack = (i :: rest) :: lower)
    (he : s.execute cfg rest lower i = some t) {u : TaskRef} (hu : u ∈ s.tasks) (hne : u ≠ s.owner)
    (hstored : (s.lastStored u).isSome) : (t.task u).context = (s.task u).context := by
  obtain ⟨k, σ, ρ, hσ, hi, -, -⟩ := h.top hstack
  have houtside : ∀ c, c ∉ s.tasks → u ≠ c := fun c hc huc => hc (huc ▸ hu)
  have hlinked : ∀ c, s.Linked c → u ≠ c := fun c hl huc => by
    rw [huc, hl.2.2.2.2.1] at hstored
    cases hstored
  cases hi <;> simp only [execute, Option.some.injEq, reduceCtorEq] at he
  case memset c =>
    subst he
    exact modify_context_of_ne _ _ (houtside c hσ.2)
  case setStackStart c p =>
    subst he
    exact modify_context_of_ne _ _ (houtside c hσ.2.1)
  case setEsp c ctx | setEbp c ctx =>
    subst he
    exact modify_context_of_ne _ _ (hlinked c hσ.1)
  case setEip c ctx =>
    subst he
    exact modify_context_of_ne (fun t => { t with eip := ctx.eip }) (rest :: lower) (hlinked c hσ.1)
  case saveEip ctx | saveEsp ctx | saveEbp ctx =>
    subst he
    exact modify_context_of_ne _ _ hne
  case clearTicks =>
    subst he
    exact (like_modify s s.current (fun t => { t with ticks := 0 }) rfl rfl _).context u
  case refill =>
    subst he
    exact (like_modify s s.current (fun t => { t with ticks := TICKS_PER_SLICE }) rfl rfl _).context u
  case setId c =>
    subst he
    exact (like_modify s c (fun t => { t with id := (s.task s.owner).id + 1 }) rfl rfl _).context u
  case taskSwitch =>
    split_ifs at he <;> cases he
    · exact (like_modify s s.current (fun t => { t with ticks := t.ticks - 1 }) rfl rfl _).context u
    · rfl
  case perform ctx =>
    obtain ⟨⟨v, stack⟩, -, rfl⟩ := Option.map_eq_some_iff.mp he
    rfl
  case trace | parent c | child p hp => split_ifs at he <;> cases he <;> rfl
  all_goals
    subst he
    rfl

theorem step_context (h : s.Inv) {a : Act} (hs : s.step cfg a = some t) {u : TaskRef} (hu : u ∈ s.tasks)
    (hne : u ≠ s.owner) (hstored : (s.lastStored u).isSome) : (t.task u).context = (s.task u).context := by
  cases stepped_of_step hs with
  | execute hstack he => exact execute_context h hstack he hu hne hstored
  | user c hstack => cases c <;> rfl
  | capture ebp hstack hpage => rw [captured, if_pos cfg.switch_ne]
  | _ => rfl

/-! ### The guarantee -/

/-- What a state has to do with the contexts of tasks. -/
structure ContextsKept (cfg : Config) (s : State) : Prop where
  /-- A task that is selected is complete. -/
  selected : ∀ rest lower t, s.stack = (.advance :: rest) :: lower → s.step cfg .step = some t →
    (t.lastStored t.current).isSome
  /-- A switch loads what was last stored for the task, and goes on with that task. -/
  loaded : ∀ rest lower, s.stack = (.performTaskSwitch :: rest) :: lower →
    s.lastStored s.current = some (s.task s.current).context ∧ ∃ t, s.step cfg .step = some t ∧ t.owner = s.current
  /-- What is stored for a task that is not running stays. -/
  kept : ∀ a t, s.step cfg a = some t → ∀ u ∈ s.tasks, u ≠ s.owner → (s.lastStored u).isSome →
    (t.task u).context = (s.task u).context

theorem contextsKept_of_inv (h : s.Inv) : s.ContextsKept cfg := by
  refine ⟨fun rest lower t hstack hs => ?_, fun rest lower hstack => ?_, fun a t hs u hu hne =>
    step_context h hs hu hne⟩
  · obtain ⟨k, σ, ρ, hσ, hi, -, -⟩ := h.top hstack
    cases hi
    obtain ⟨⟨-, hcomplete⟩, hlast, -⟩ := hσ
    simp only [step, hstack, execute, Option.some.injEq] at hs
    subst hs
    by_cases hne : s.successor = s.owner
    · exact Option.isSome_iff_exists.mpr ⟨_, (congrArg s.lastStored hne).trans hlast⟩
    · exact hcomplete _ h.data.successor_mem hne fun hf => hf
  · obtain ⟨k, σ, ρ, hσ, hi, -, -⟩ := h.top hstack
    cases hi
    obtain ⟨ctx, hctx, hcontext, -, k', st, himage, -⟩ := (perform_spec h.data hσ).2 s.current h.data.current_mem
    rw [← hcontext] at hctx himage
    refine ⟨hctx, { s with flag := true, stack := st, owner := s.current }, ?_, rfl⟩
    simp only [step, hstack, execute, himage, Option.map_some]

end State

/-- **Contexts are kept** in every state of every run. -/
theorem contexts_kept {cfg : Config} (hlevel : cfg.level = LEVEL_INFO) {root : TaskRef} {heap : TaskRef → Task}
    {acts : List Act} {s : State} (h : (schedMachine cfg).run (State.init root heap) acts = some s) :
    s.ContextsKept cfg :=
  State.contextsKept_of_inv (State.inv_of_run (by rw [hlevel]; decide) h)

/-- The configuration of the repository, at some addresses. -/
def sampleConfig : Config := ⟨LEVEL_INFO, 0xC0101000, 0xC0102000, by decide⟩

/-- After `task_init`, task `1` running. -/
def sampleInit : State := .init 1 fun _ => ⟨0, 0, 0, 0, 0, 0⟩

/-- Task `1` creates task `2`. -/
def createActs : List Act :=
  .user .threadCreate :: List.replicate 3 .step ++ .kmalloc 2 false :: List.replicate 7 .step ++
    .page 0x400000 0 :: List.replicate 16 .step ++ .regs 0xC07FFF00 0xC07FFF40 :: List.replicate 7 .step

/-- The running task yields, up to the jump to the next. -/
def yieldActs (esp ebp : UInt32) : List Act :=
  .user .yield :: List.replicate 6 .step ++ .regs esp ebp :: List.replicate 5 .step

theorem contexts_kept_sample :
    ∃ s, (schedMachine sampleConfig).run sampleInit (createActs ++ yieldActs 0xC07FFE00 0xC07FFE10) = some s ∧
      s.current = 2 ∧ s.lastStored s.current = some ⟨0xC0102000, 0x7FFF00, 0x7FFF40⟩ ∧
      ∃ t, s.step sampleConfig .step = some t ∧ t.owner = s.current := by
  have hrun : ((schedMachine sampleConfig).run sampleInit (createActs ++ yieldActs 0xC07FFE00 0xC07FFE10)).map
      (fun s => (s.current, s.stack, (s.task s.current).context)) =
      some (2, [[.performTaskSwitch, .iret true], [], [.user, .cli, .halt]], ⟨0xC0102000, 0x7FFF00, 0x7FFF40⟩) := by
    decide +kernel
  obtain ⟨s, hs, hl⟩ := Option.map_eq_some_iff.mp hrun
  rw [Prod.mk.injEq, Prod.mk.injEq] at hl
  obtain ⟨hlast, hstep⟩ := (contexts_kept rfl hs).loaded _ _ hl.2.1
  exact ⟨s, hs, hl.1, by rw [hlast, hl.2.2], hstep⟩

end MoltarOS.Sched
