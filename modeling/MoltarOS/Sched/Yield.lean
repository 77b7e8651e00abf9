import MoltarOS.Sched.RoundRobin

/-!
# Yielding

`yield` clears the ticks of its task with interrupts disabled, enables them, and raises
`INT $255`. The timer may come before, in the gap between `sti` and `INT $255`, or after.
`Yielding` lists where the CPU can be until `task_switch` selects: with the ticks cleared, the
next interrupt to come, whichever it is, finds none left.

## What is proved

* `yield_switches` — with two tasks or more, whatever ticks are left and wherever the timer comes, the CPU
  executes another task, which was selected, before `yield` returns.
-/

namespace MoltarOS.Sched

open MoltarOS.Lib

namespace State

variable {s t : State} {cfg : Config} {c : TaskRef} {base lower : Stack}

/-! ### Selections -/

/-- With two tasks or more, `task_switch` selects another one. -/
theorem Data.successor_ne (hd : s.Data) (htwo : 2 ≤ s.tasks.length) : s.successor ≠ s.current := by
  obtain ⟨pre, post, hsplit, hpre⟩ := hd.split
  have hnodup := hd.nodup
  rw [hsplit] at hnodup htwo
  have hpost : s.current ∉ post := (List.nodup_cons.mp (List.nodup_append.mp hnodup).2.1).1
  rw [successor_eq hsplit hpre]
  have hother : s.current ∉ post ++ pre := fun hmem => (List.mem_append.mp hmem).elim hpost hpre
  cases hl : post ++ pre with
  | nil =>
    rw [List.append_eq_nil_iff] at hl
    rw [hl.1, hl.2] at htwo
    exact absurd htwo (by simp)
  | cons u us =>
    rw [hl] at hother
    exact fun he => hother (he ▸ List.mem_cons_self)

/-- Only a selection changes `current`. -/
theorem step_current {a : Act} (hs : s.step cfg a = some t) : t.current = s.current ∨ s.selects a = [t.current] := by
  cases stepped_of_step hs with
  | execute hstack he =>
    rcases execute_list he with ⟨rfl, -, hcurrent⟩ | ⟨p, c, -, -, hcurrent⟩ | ⟨-, -, -, hcurrent⟩
    · exact Or.inr (by rw [selects, hstack, hcurrent])
    · exact Or.inl hcurrent
    · exact Or.inl hcurrent
  | user c hstack => cases c <;> exact Or.inl rfl
  | capture ebp hstack hpage =>
    rw [captured, if_pos cfg.switch_ne]
    exact Or.inl rfl
  | _ => exact Or.inl rfl

/-- A task that is `current` after a run, and was not before, was selected. -/
theorem current_selected {acts : List Act} (h : (schedMachine cfg).run s acts = some t) (hne : t.current ≠ s.current) :
    t.current ∈ (schedMachine cfg).trace selects s acts := by
  have hhistory : t.current = s.current ∨ t.current ∈ [] ++ (schedMachine cfg).trace selects s acts := by
    refine (schedMachine cfg).invariant_trace (I := fun u es => u.current = s.current ∨ u.current ∈ es) ?_
      (Or.inl rfl) h
    intro u a w es hu hw
    rcases step_current hw with heq | hsel
    · rw [heq]
      exact hu.imp_right (List.mem_append_left _)
    · rw [hsel]
      exact Or.inr (List.mem_append_right _ (List.mem_singleton.mpr rfl))
  rw [List.nil_append] at hhistory
  exact hhistory.resolve_left hne

/-! ### Up to the selection -/

/-- Where the CPU can be in a `yield` called by `c` on the stack `base` before `task_switch` selects. -/
inductive Yielding (c : TaskRef) (base : Stack) (s : State) : Prop where
  /-- It is called, and handlers that had nothing to do are about to be left. -/
  | called (left : Stack) (hleft : ∀ f ∈ left, f = []) (hstack : s.stack = left ++ yield :: base)
  /-- The timer came first. -/
  | early (left : Stack) (hleft : ∀ f ∈ left, f = []) (b : Bool) (f : Frame)
    (hf : f = handler b ∨ f = [.taskSwitch, .iret b] ∨ f = [.iret b]) (hflag : s.flag = false)
    (hstack : s.stack = f :: (left ++ yield :: base))
  /-- Interrupts are disabled. -/
  | clearing (hflag : s.flag = false) (hstack : s.stack = [.clearTicks, .sti, .int255] :: base)
  /-- The ticks are cleared. -/
  | cleared (hflag : s.flag = false) (hticks : (s.task c).ticks = 0) (hstack : s.stack = [.sti, .int255] :: base)
  /-- Interrupts are enabled, and `INT $255` is to come. -/
  | gap (hticks : (s.task c).ticks = 0) (hstack : s.stack = [.int255] :: base)
  /-- An interrupt has come, and finds no ticks left. -/
  | last (below : Stack) (hbelow : base.length < below.length) (b : Bool) (f : Frame)
    (hf : f = handler b ∨ f = [.taskSwitch, .iret b]) (hflag : s.flag = false) (hticks : (s.task c).ticks = 0)
    (hstack : s.stack = f :: below)
  /-- No ticks are left. -/
  | capturing (below : Stack) (hbelow : base.length < below.length) (b : Bool) (hflag : s.flag = false)
    (hstack : s.stack = [.capture c, .iret b] :: below)
  /-- The registers are read. -/
  | selecting (below : Stack) (hbelow : base.length < below.length) (b : Bool) (ctx : Context) (hflag : s.flag = false)
    (hstack : s.stack = (switchRest c ctx ++ [.iret b]) :: below)

/-- The calling task has yielded to nobody yet. -/
structure Waiting (c : TaskRef) (base : Stack) (s : State) : Prop where
  /-- The invariant of the scheduler. -/
  inv : s.Inv
  /-- There is another task. -/
  two : 2 ≤ s.tasks.length
  /-- The CPU executes the calling task. -/
  owner : s.owner = c
  /-- It is selected. -/
  current : s.current = c
  /-- Where the CPU is. -/
  yielding : Yielding c base s

/-- Another task is selected, and about to be switched to. -/
structure Selected (c : TaskRef) (base : Stack) (s : State) : Prop where
  /-- The invariant of the scheduler. -/
  inv : s.Inv
  /-- The CPU executes the calling task. -/
  owner : s.owner = c
  /-- It is not selected. -/
  current : s.current ≠ c
  /-- Interrupts are disabled. -/
  flag : s.flag = false
  /-- Registers are stored. -/
  stack : ∃ (ctx : Context) (b : Bool) (f : Frame) (below : Stack), base.length < below.length ∧
    f <:+ [.refill, .saveEip c ctx.eip, .saveEsp c ctx.esp, .saveEbp c ctx.ebp] ∧
    s.stack = (f ++ [.performTaskSwitch, .iret b]) :: below

theorem Waiting.next (h : Waiting c base s) (ht : t.Inv) (htasks : t.tasks = s.tasks) (howner : t.owner = s.owner)
    (hcurrent : t.current = s.current) (hy : Yielding c base t) : Waiting c base t :=
  ⟨ht, htasks ▸ h.two, howner.trans h.owner, hcurrent.trans h.current, hy⟩

theorem modify_ticks (s : State) (v : TaskRef) (stack : Stack) (n : UInt32) :
    (((s.goto stack).modify v fun t => { t with ticks := n }).task v).ticks = n := by
  rw [modify_task_self]

/-- Reading the registers in `task_switch`. -/
theorem step_capture {u : TaskRef} {f : Frame} (hflag : s.flag = false) (hstack : s.stack = (.capture u :: f) :: lower)
    {a : Act} (hs : s.step cfg a = some t) : ∃ esp ebp, t = s.captured cfg u esp ebp f lower := by
  cases stepped_of_step hs with
  | timer henabled => cases hflag.symm.trans henabled
  | execute hstack' he =>
    cases hstack.symm.trans hstack'
    cases he
  | capture ebp hstack' hpage =>
    cases hstack.symm.trans hstack'
    exact ⟨_, ebp, rfl⟩
  | done hother | user c hother | kmalloc child grown hother hfresh | page newStack redirected hother hfree
  | panicNew hother | panicBlock hother | readRegs ebp hother hpage => cases hstack.symm.trans hother

/-- A handler begins. -/
theorem step_handler {b : Bool} {below : Stack} (hflag : s.flag = false)
    (hstack : s.stack = handler b :: below) {a : Act}
    (hs : s.step cfg a = some t) : t = { s.goto ([.taskSwitch, .iret b] :: below) with flag := false } := by
  have he := step_masked rfl hflag hstack hs
  simp only [execute, Option.some.injEq] at he
  exact he.symm

/-- `task_switch` counts down, or goes on to read the registers. -/
theorem step_taskSwitch {b : Bool} {below : Stack} (hflag : s.flag = false)
    (hstack : s.stack = [.taskSwitch, .iret b] :: below) {a : Act} (hs : s.step cfg a = some t) :
    ((s.task s.current).ticks ≠ 0 ∧
      t = (s.goto ([.iret b] :: below)).modify s.current fun t => { t with ticks := t.ticks - 1 }) ∨
    ((s.task s.current).ticks = 0 ∧ t = s.goto ([.capture s.current, .iret b] :: below)) := by
  have he := step_masked rfl hflag hstack hs
  simp only [execute] at he
  split_ifs at he with hticks
  · exact Or.inl ⟨hticks, (Option.some.inj he).symm⟩
  · exact Or.inr ⟨not_not.mp hticks, (Option.some.inj he).symm⟩

/-- A step of the calling task on its way to the selection. -/
theorem waiting_step (hlevel : LEVEL_TRACE < cfg.level) (h : Waiting c base s) {a : Act} (hs : s.step cfg a = some t) :
    Waiting c base t ∨ Selected c base t := by
  have ht := step_inv hlevel h.inv hs
  cases h.yielding with
  | called left hleft hstack =>
    cases left with
    | nil =>
      rcases step_closed rfl hstack hs with ⟨-, rfl⟩ | he
      · exact Or.inl (h.next ht rfl rfl rfl (.early [] hleft s.flag _ (Or.inl rfl) rfl (by rw [interrupt, hstack])))
      · simp only [execute, Option.some.injEq] at he
        subst he
        exact Or.inl (h.next ht rfl rfl rfl (.clearing rfl rfl))
    | cons f left =>
      obtain rfl := hleft f List.mem_cons_self
      have hleft' : ∀ f ∈ left, f = [] := fun f hf => hleft f (List.mem_cons_of_mem _ hf)
      rcases step_done hstack hs with ⟨-, rfl⟩ | rfl
      · exact Or.inl (h.next ht rfl rfl rfl (.early _ hleft s.flag _ (Or.inl rfl) rfl (by rw [interrupt, hstack])))
      · exact Or.inl (h.next ht rfl rfl rfl (.called left hleft' rfl))
  | early left hleft b f hf hflag hstack =>
    have hbelow : base.length < (left ++ yield :: base).length := by
      rw [List.length_append, List.length_cons]
      omega
    rcases hf with rfl | rfl | rfl
    · obtain rfl := step_handler hflag hstack hs
      exact Or.inl (h.next ht rfl rfl rfl (.early left hleft b _ (Or.inr (Or.inl rfl)) rfl rfl))
    · rcases step_taskSwitch hflag hstack hs with ⟨-, rfl⟩ | ⟨-, rfl⟩
      · exact Or.inl (h.next ht rfl rfl rfl (.early left hleft b _ (Or.inr (Or.inr rfl)) hflag rfl))
      · refine Or.inl (h.next ht rfl rfl rfl (.capturing _ hbelow b hflag ?_))
        rw [h.current]
        rfl
    · have he := step_masked rfl hflag hstack hs
      simp only [execute, Option.some.injEq] at he
      subst he
      refine Or.inl (h.next ht rfl rfl rfl (.called ([] :: left) ?_ rfl))
      exact List.forall_mem_cons.mpr ⟨rfl, hleft⟩
  | clearing hflag hstack =>
    have he := step_masked rfl hflag hstack hs
    simp only [execute, Option.some.injEq] at he
    subst he
    refine Or.inl (h.next ht rfl rfl rfl (.cleared hflag ?_ rfl))
    rw [← h.current]
    exact modify_ticks s s.current _ 0
  | cleared hflag hticks hstack =>
    have he := step_masked rfl hflag hstack hs
    simp only [execute, Option.some.injEq] at he
    subst he
    exact Or.inl (h.next ht rfl rfl rfl (.gap hticks rfl))
  | gap hticks hstack =>
    rcases step_closed rfl hstack hs with ⟨-, rfl⟩ | he
    · -- the timer comes in the gap
      refine Or.inl (h.next ht rfl rfl rfl (.last _ ?_ s.flag _ (Or.inl rfl) rfl hticks rfl))
      rw [hstack, List.length_cons]
      exact Nat.lt_succ_self _
    · simp only [execute, Option.some.injEq] at he
      subst he
      exact Or.inl
        (h.next ht rfl rfl rfl (.last ([] :: base) (Nat.lt_succ_self _) s.flag _ (Or.inl rfl) rfl hticks rfl))
  | last below hbelow b f hf hflag hticks hstack =>
    rcases hf with rfl | rfl
    · obtain rfl := step_handler hflag hstack hs
      exact Or.inl (h.next ht rfl rfl rfl (.last below hbelow b _ (Or.inr rfl) rfl hticks rfl))
    · rw [← h.current] at hticks
      obtain ⟨-, rfl⟩ := (step_taskSwitch hflag hstack hs).resolve_left fun hleft => hleft.1 hticks
      refine Or.inl (h.next ht rfl rfl rfl (.capturing below hbelow b hflag ?_))
      rw [h.current]
      rfl
  | capturing below hbelow b hflag hstack =>
    obtain ⟨esp, ebp, rfl⟩ := step_capture hflag hstack hs
    rw [captured, if_pos cfg.switch_ne] at ht ⊢
    exact Or.inl (h.next ht rfl rfl rfl (.selecting below hbelow b _ hflag rfl))
  | selecting below hbelow b ctx hflag hstack =>
    have he := step_masked rfl hflag hstack hs
    simp only [execute, Option.some.injEq] at he
    subst he
    refine Or.inr ⟨ht, h.owner, ?_, hflag, ctx, b, _, below, hbelow, List.suffix_rfl, rfl⟩
    have hne := h.inv.data.successor_ne h.two
    rw [h.current] at hne
    exact hne

/-! ### From the selection to the switch -/

/-- The statements that store registers go on with the next one. -/
theorem execute_saves (s : State) (cfg : Config) (f : Frame) (lower : Stack) {i : Instr} {ctx : Context}
    (hi : i ∈ [Instr.refill, .saveEip c ctx.eip, .saveEsp c ctx.esp, .saveEbp c ctx.ebp]) :
    i.isOpen = false ∧ ∃ u, s.execute cfg f lower i = some u ∧ u.owner = s.owner ∧ u.current = s.current ∧
    u.flag = s.flag ∧
      u.stack = f :: lower := by
  simp only [List.mem_cons, List.not_mem_nil, or_false] at hi
  rcases hi with rfl | rfl | rfl | rfl
  all_goals exact ⟨rfl, _, rfl, rfl, rfl, rfl, rfl⟩

/-- A step between the selection and the switch. -/
theorem selected_step (hlevel : LEVEL_TRACE < cfg.level) (h : Selected c base s) {a : Act}
    (hs : s.step cfg a = some t) :
    Selected c base t ∨ (t.owner ≠ c ∧ t.owner = t.current) := by
  obtain ⟨ctx, b, f, below, hbelow, hf, hstack⟩ := h.stack
  cases f with
  | nil =>
    have he := step_masked rfl h.flag hstack hs
    have hkept : s.ContextsKept cfg := contextsKept_of_inv h.inv
    obtain ⟨-, u, hu, howner⟩ := hkept.loaded _ _ hstack
    simp only [execute] at he
    simp only [step, hstack, List.nil_append, execute, he, Option.some.injEq] at hu
    subst hu
    obtain ⟨⟨v, stack⟩, -, rfl⟩ := Option.map_eq_some_iff.mp he
    exact Or.inr ⟨howner ▸ h.current, howner⟩
  | cons i f =>
    obtain ⟨hopen, u, hu, howner, hcurrent, hflag, hstack'⟩ :=
      execute_saves s cfg (f ++ [.performTaskSwitch, .iret b]) below (hf.subset List.mem_cons_self)
    have he := step_masked hopen h.flag hstack hs
    obtain rfl : u = t := Option.some.inj (hu.symm.trans he)
    exact Or.inl ⟨step_inv hlevel h.inv hs, howner.trans h.owner, hcurrent ▸ h.current, hflag.trans h.flag, ctx, b,
      f, below, hbelow, (List.suffix_cons i f).trans hf, hstack'⟩

/-- Until `yield` returns there is more on the stack. -/
theorem Yielding.length_lt (h : Yielding c base s) : base.length < s.stack.length := by
  cases h with
  | called left hleft hstack | early left hleft b f hf hflag hstack =>
    simp only [hstack, List.length_append, List.length_cons]
    omega
  | clearing hflag hstack | cleared hflag hticks hstack | gap hticks hstack =>
    rw [hstack, List.length_cons]
    exact Nat.lt_succ_self _
  | last below hbelow b f hf hflag hticks hstack | capturing below hbelow b hflag hstack
  | selecting below hbelow b ctx hflag hstack =>
    rw [hstack, List.length_cons]
    exact Nat.lt_succ_of_lt hbelow

theorem Selected.length_lt (h : Selected c base s) : base.length < s.stack.length := by
  obtain ⟨ctx, b, f, below, hbelow, -, hstack⟩ := h.stack
  rw [hstack, List.length_cons]
  exact Nat.lt_succ_of_lt hbelow

/-- A run that begins in a call of `yield` is still on the stack of the call, or has executed another task, which was
selected. -/
theorem waiting_run (hlevel : LEVEL_TRACE < cfg.level) (h : Waiting c base s) {acts : List Act}
    (hr : (schedMachine cfg).run s acts = some t) :
    base.length < t.stack.length ∨ ∃ pre post w, acts = pre ++ post ∧ (schedMachine cfg).run s pre = some w ∧
      (schedMachine cfg).run w post = some t ∧ w.owner ≠ c ∧ w.owner ∈ (schedMachine cfg).trace selects s pre := by
  rcases (schedMachine cfg).run_until (fun _ _ _ hu hs => waiting_step hlevel hu hs) h hr with hw | hsel
  · exact Or.inl hw.yielding.length_lt
  obtain ⟨pre, post, u, rfl, hpre, hpost, hu⟩ := hsel
  rcases (schedMachine cfg).run_until (fun _ _ _ hu hs => selected_step hlevel hu hs) hu hpost with hw | hswitch
  · exact Or.inl hw.length_lt
  obtain ⟨mid, post, w, rfl, hmid, hpost, hne, hcurrent⟩ := hswitch
  have hrun : (schedMachine cfg).run s (pre ++ mid) = some w := (schedMachine cfg).run_append.mpr ⟨u, hpre, hmid⟩
  refine Or.inr ⟨pre ++ mid, post, w, (List.append_assoc _ _ _).symm, hrun, hpost, hne, ?_⟩
  rw [hcurrent] at hne ⊢
  exact current_selected hrun (h.current ▸ hne)

/-- `current->ticks` may be any number. -/
def withTicks (s : State) (n : UInt32) : State := s.modify s.current fun t => { t with ticks := n }

theorem withTicks_inv (h : s.Inv) (n : UInt32) : (s.withTicks n).Inv := by
  obtain ⟨hd, k, σ, hok, hσ⟩ := h
  have hlike := like_modify s s.current (fun t => { t with ticks := n }) rfl rfl s.stack
  exact hlike.inv hd hok (hlike.holds rfl hσ)

end State

open State in
/-- **`yield` yields**: in a run from the call of `yield` to its return, with any number of ticks left at the call
and the timer coming anywhere, the CPU executes another task, which was selected. -/
theorem yield_switches {cfg : Config} (hlevel : cfg.level = LEVEL_INFO) {root : TaskRef} {heap : TaskRef → Task}
    {before acts : List Act} {s t : State} {rest : Frame} {lower : Stack}
    (h : (schedMachine cfg).run (State.init root heap) before = some s) (htwo : 2 ≤ s.tasks.length)
    (hstack : s.stack = (.user :: rest) :: lower) (ticks : UInt32)
    (hr : (schedMachine cfg).run (s.withTicks ticks) (.user .yield :: acts) = some t) (hreturn : t.stack = s.stack) :
    ∃ pre post w, acts = pre ++ post ∧ (schedMachine cfg).run (s.withTicks ticks) (.user .yield :: pre) = some w ∧
      (schedMachine cfg).run w post = some t ∧ w.owner ≠ s.owner ∧
      w.owner ∈ (schedMachine cfg).trace selects (s.withTicks ticks) (.user .yield :: pre) := by
  have hlevel' : LEVEL_TRACE < cfg.level := by rw [hlevel]; decide
  have hinv := withTicks_inv (inv_of_run hlevel' h) ticks
  have hstack' : (s.withTicks ticks).stack = (.user :: rest) :: lower := hstack
  obtain ⟨u, hu, ht⟩ := (schedMachine cfg).run_cons.mp hr
  have hcall : u = (s.withTicks ticks).goto (yield :: (.user :: rest) :: lower) := by
    simp only [schedMachine, step, hstack', userStep, Option.some.injEq] at hu
    exact hu.symm
  obtain ⟨k, σ, ρ, hσ, hi, -, -⟩ := hinv.top hstack'
  cases hi
  have hcurrent : s.current = s.owner := hσ.1
  have hwait : Waiting s.owner ((.user :: rest) :: lower) u := by
    subst hcall
    exact ⟨userStep_inv hinv hstack' .yield, htwo, rfl, hcurrent, .called [] (List.forall_mem_nil _) rfl⟩
  rcases waiting_run hlevel' hwait ht with hlt | ⟨pre, post, w, rfl, hpre, hpost, hne, hsel⟩
  · rw [hreturn, hstack] at hlt
    exact absurd hlt (Nat.lt_irrefl _)
  · refine ⟨pre, post, w, rfl, (schedMachine cfg).run_cons.mpr ⟨u, hu, hpre⟩, hpost, hne, ?_⟩
    rw [Machine.trace_cons _ selects hu]
    exact List.mem_append_right _ hsel

/-- After task `1` has called `yield`, the timer comes before its `cli`, and again between `sti` and `INT $255`,
which then finds the ticks refilled. -/
def gapActs : List Act :=
  [[.timer], List.replicate 7 .step, [.timer, .step, .step, .regs 0xC07FFE00 0xC07FFE10], List.replicate 9 .step,
    yieldActs 0x7FFE00 0x7FFE10, List.replicate 9 .step].flatten

open State in
/-- Task `1` calls `yield` with 7 ticks left. -/
theorem yield_switches_gap :
    ∃ s t, (schedMachine sampleConfig).run sampleInit createActs = some s ∧
      (schedMachine sampleConfig).run (s.withTicks 7) (.user .yield :: gapActs) = some t ∧ t.stack = s.stack ∧
      ∃ pre post w, gapActs = pre ++ post ∧
        (schedMachine sampleConfig).run (s.withTicks 7) (.user .yield :: pre) = some w ∧
        (schedMachine sampleConfig).run w post = some t ∧ w.owner ≠ s.owner ∧
        w.owner ∈ (schedMachine sampleConfig).trace selects (s.withTicks 7) (.user .yield :: pre) := by
  have hrun : (((schedMachine sampleConfig).run sampleInit createActs).bind fun s =>
      ((schedMachine sampleConfig).run (s.withTicks 7) (.user .yield :: gapActs)).map fun t =>
        (s.tasks, s.stack, t.stack)) = some ([1, 2], [[.user, .cli, .halt]], [[.user, .cli, .halt]]) := by
    decide +kernel
  obtain ⟨s, hs, ht⟩ := Option.bind_eq_some_iff.mp hrun
  obtain ⟨t, ht, hl⟩ := Option.map_eq_some_iff.mp ht
  rw [Prod.mk.injEq, Prod.mk.injEq] at hl
  obtain ⟨htasks, hstack, hstack'⟩ := hl
  have hreturn : t.stack = s.stack := hstack'.trans hstack.symm
  refine ⟨s, t, hs, ht, hreturn, yield_switches rfl hs ?_ hstack 7 ht hreturn⟩
  rw [htasks]
  decide

end MoltarOS.Sched
