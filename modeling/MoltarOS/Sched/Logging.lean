import MoltarOS.Sched.Context

/-!
# Log calls in critical sections

`KLOG` disables interrupts, prints, and enables them, whatever the flag was before. In a
section that disables interrupts itself ("Ensure we are not interrupted"), the first log
call that is not filtered ends the section early.

## What is proved

* `sections_unbroken_iff` — at any `LOG_LEVEL`: interrupts stay disabled until a section's
  own `sti` exactly if every log call in it is filtered; in `thread_create`'s section, with
  the log calls of all it calls, exactly if `KTRACE` is filtered; and the timer cannot come
  while `thread_create` has a child linked but not complete exactly if `KTRACE` is filtered.
* `section_broken` — at `LEVEL_TRACE` the timer comes there, and `task_switch` is about to jump
  to the address 0 of an unfinished child.
-/

namespace MoltarOS.Sched

open MoltarOS.Lib

/-- The statements of a section: log calls, and those that neither call nor touch the flag. -/
def Instr.inSection : Instr → Bool
  | .log _ | .print | .clearTicks | .advance | .refill | .saveEip _ _ | .saveEsp _ _ | .saveEbp _ _ | .memset _ => true
  | .setId _ _ | .setStackStart _ _ | .insertAfter _ _ | .readEip | .setEsp _ _ | .setEbp _ _ | .setEip _ _ => true
  | _ => false

/-- Those of `thread_create`'s section; its log calls are all `KTRACE`. -/
def Instr.inCreate : Instr → Bool
  | .log level => level == LEVEL_TRACE
  | .advance => false
  | i => i.inSection

namespace State

variable {s t : State} {cfg : Config} {body rest : Frame} {lower : Stack}

/-- Interrupts stay disabled until the stack is one of those at which the section is `past`. -/
def Unbroken (cfg : Config) (s : State) (past : Stack → Prop) : Prop :=
  ∀ t, (schedMachine cfg).Within (fun u => ¬ past u.stack) s t → t.flag = false

/-- The section of a call of `thread_create` is over: its own `sti` has been executed, or what it
calls has panicked. -/
def ThreadCreateOver (lower stack : Stack) : Prop := stack = [] :: lower ∨ stack = KPANIC :: lower

/-- A child is in the list, and its registers have not been set up. -/
def HalfBuilt (s : State) : Prop := ∃ c ∈ s.tasks, c ≠ s.owner ∧ s.lastStored c = none

/-! ### Steps of a section -/

/-- A statement of a section goes on with the next one, unless it is a log call that is not filtered. -/
theorem execute_inSection (s : State) (rest : Frame) (lower : Stack) {i : Instr} (hi : i.inSection)
    (hlog : ∀ level, i = .log level → level < cfg.level) :
    ∃ t b, s.execute cfg rest lower i = some t ∧ t.flag = s.flag ∧ (i ≠ .advance → t.current = s.current) ∧
      t.stack = (b ++ rest) :: lower ∧ ∀ j ∈ b, j = .print := by
  cases i <;> simp only [Instr.inSection, Bool.false_eq_true] at hi
  case log level =>
    refine ⟨_, [.print], if_neg (Nat.not_le.mpr (hlog level rfl)), rfl, fun _ => rfl, rfl, ?_⟩
    intro j hj
    exact List.mem_singleton.mp hj
  case advance => exact ⟨_, [], rfl, rfl, fun h => absurd rfl h, rfl, fun j hj => absurd hj List.not_mem_nil⟩
  all_goals exact ⟨_, [], rfl, rfl, fun _ => rfl, rfl, fun j hj => absurd hj List.not_mem_nil⟩

/-- With interrupts disabled, nothing but the section's own statements is executed. -/
theorem step_inSection {i : Instr} {f : Frame} (hflag : s.flag = false) (hstack : s.stack = (i :: f) :: lower)
    (hi : i.inSection ∨ i = .sti) {a : Act} (hs : s.step cfg a = some t) : s.execute cfg f lower i = some t := by
  have hopen : i.isOpen = false := by cases i <;> simp_all [Instr.inSection, Instr.isOpen]
  exact step_masked hopen hflag hstack hs

/-- The section's own `sti` is still to come. -/
theorem ne_after (b : Frame) : (b ++ .sti :: rest) :: lower ≠ rest :: lower := by
  intro h
  have hlen := congrArg List.length (List.cons.inj h).1
  simp at hlen
  omega

theorem unbroken_of_filtered (hflag : s.flag = false) (hstack : s.stack = (body ++ .sti :: rest) :: lower)
    (hbody : ∀ i ∈ body, i.inSection) (hlog : ∀ level, .log level ∈ body → level < cfg.level) :
    s.Unbroken cfg (· = rest :: lower) := by
  intro t ht
  -- what is left of the section is such a section
  refine (ht.invariant (I := fun u => u.flag = false ∧ ∃ b, u.stack = (b ++ .sti :: rest) :: lower ∧
    (∀ i ∈ b, i.inSection) ∧ ∀ level, .log level ∈ b → level < cfg.level) ?_ ⟨hflag, body, hstack, hbody, hlog⟩).1
  rintro u a w ⟨hf, b, hb, hsec, hfiltered⟩ hstep hw
  cases b with
  | nil =>
    have hex := step_inSection hf hb (Or.inr rfl) hstep
    simp only [execute, Option.some.injEq] at hex
    subst hex
    exact absurd rfl hw
  | cons i b =>
    have hex := step_inSection hf hb (Or.inl (hsec i List.mem_cons_self)) hstep
    obtain ⟨w', b', hex', hflag', -, hstack', hprint⟩ := execute_inSection u (b ++ .sti :: rest) lower
      (hsec i List.mem_cons_self) fun level he => hfiltered level (he ▸ List.mem_cons_self)
    obtain rfl : w' = w := Option.some.inj (hex'.symm.trans hex)
    refine ⟨hflag'.trans hf, b' ++ b, by rw [hstack', List.append_assoc], fun j hj => ?_, fun level hj => ?_⟩
    · rcases List.mem_append.mp hj with hj | hj
      · rw [hprint j hj]
        rfl
      · exact hsec j (List.mem_cons_of_mem i hj)
    · rcases List.mem_append.mp hj with hj | hj
      · cases hprint _ hj
      · exact hfiltered level (List.mem_cons_of_mem i hj)

/-- `KLOG` enables interrupts. -/
theorem klog_enables (cfg : Config) (s : State) (f : Frame) (past : Stack → Prop)
    (hne : ∀ g : Frame, ¬ past (g :: f :: lower)) :
    ∃ t, (schedMachine cfg).Within (fun u => ¬ past u.stack) (s.goto (KLOG :: f :: lower)) t ∧ t.flag = true := by
  refine ⟨{ s.goto ([] :: f :: lower) with flag := true }, ?_, rfl⟩
  refine .head (o := .step) (hne _) rfl ?_
  refine .head (o := .step) (hne _) rfl ?_
  refine .head (o := .step) (hne _) rfl ?_
  refine .head (o := .step) (hne _) rfl ?_
  refine .head (o := .step) (hne _) rfl ?_
  exact .head (o := .step) (hne _) rfl (.start (hne _))

/-- The section's statements may print first. -/
theorem enables_of_prints {b : Frame} (hb : ∀ j ∈ b, j = .print)
    (h : ∀ u : State, u.stack = (body ++ .sti :: rest) :: lower →
      ∃ t, (schedMachine cfg).Within (fun u => ¬ u.stack = rest :: lower) u t ∧ t.flag = true)
    (hstack : s.stack = (b ++ body ++ .sti :: rest) :: lower) :
    ∃ t, (schedMachine cfg).Within (fun u => ¬ u.stack = rest :: lower) s t ∧ t.flag = true := by
  induction b generalizing s with
  | nil => exact h s hstack
  | cons i b ih =>
    obtain rfl := hb i List.mem_cons_self
    have hstep : (schedMachine cfg).step s .step = some (s.goto ((b ++ body ++ .sti :: rest) :: lower)) := by
      simp only [schedMachine, step, hstack, List.cons_append, execute]
    obtain ⟨t, ht, hflag⟩ := ih (s := s.goto ((b ++ body ++ .sti :: rest) :: lower))
      (fun j hj => hb j (List.mem_cons_of_mem .print hj)) rfl
    exact ⟨t, .head (hstack ▸ ne_after (.print :: b ++ body)) hstep ht, hflag⟩

theorem enables_of_not_filtered {level : ℕ} (hlog : .log level ∈ body) (hlevel : cfg.level ≤ level)
    (hbody : ∀ i ∈ body, i.inSection) (hstack : s.stack = (body ++ .sti :: rest) :: lower) :
    ∃ t, (schedMachine cfg).Within (fun u => ¬ u.stack = rest :: lower) s t ∧ t.flag = true := by
  induction body generalizing s with
  | nil => cases hlog
  | cons i body ih =>
    have hne : s.stack ≠ rest :: lower := hstack ▸ ne_after (i :: body)
    by_cases hi : ∃ l, i = .log l ∧ cfg.level ≤ l
    · -- the first that is not filtered
      obtain ⟨l, rfl, hl⟩ := hi
      have hstep : (schedMachine cfg).step s .step = some (s.goto (KLOG :: (body ++ .sti :: rest) :: lower)) := by
        simp only [schedMachine, step, hstack, List.cons_append, execute, if_pos hl]
      have hlen : ∀ g : Frame, g :: (body ++ .sti :: rest) :: lower ≠ rest :: lower := fun g h => by
        have hlen := congrArg List.length h
        simp at hlen
      obtain ⟨t, ht, hflag⟩ := klog_enables cfg s (body ++ .sti :: rest) (· = rest :: lower) hlen
      exact ⟨t, .head hne hstep ht, hflag⟩
    · have hfiltered : ∀ l, i = .log l → l < cfg.level := fun l he => Nat.lt_of_not_le fun hl => hi ⟨l, he, hl⟩
      have hlog' : .log level ∈ body := by
        rcases List.mem_cons.mp hlog with rfl | hlog
        · exact absurd ⟨level, rfl, hlevel⟩ hi
        · exact hlog
      have hbody' : ∀ j ∈ body, j.inSection := fun j hj => hbody j (List.mem_cons_of_mem i hj)
      obtain ⟨w, b, hex, -, -, hw, hprint⟩ := execute_inSection s (body ++ .sti :: rest) lower
        (hbody i List.mem_cons_self) hfiltered
      have hstep : (schedMachine cfg).step s .step = some w := by
        simp only [schedMachine, step, hstack, List.cons_append]
        exact hex
      rw [← List.append_assoc] at hw
      obtain ⟨t, ht, hflag⟩ := enables_of_prints hprint (fun u hu => ih hlog' hbody' hu) hw
      exact ⟨t, .head hne hstep ht, hflag⟩

theorem unbroken_iff (hflag : s.flag = false) (hstack : s.stack = (body ++ .sti :: rest) :: lower)
    (hbody : ∀ i ∈ body, i.inSection) :
    s.Unbroken cfg (· = rest :: lower) ↔ ∀ level, .log level ∈ body → level < cfg.level := by
  refine ⟨fun h level hlog => Nat.lt_of_not_le fun hlevel => ?_, unbroken_of_filtered hflag hstack hbody⟩
  obtain ⟨t, ht, henabled⟩ := enables_of_not_filtered hlog hlevel hbody hstack
  cases henabled.symm.trans (h t ht)

/-! ### The section of `thread_create` -/

/-- What is left of the section in the task `p`, in `thread_create` and in what it has called. -/
inductive Remaining (p : TaskRef) : Frame → Prop where
  /-- Only the section's own `sti`. -/
  | sti : Remaining p [.sti]
  | plain {i : Instr} {f : Frame} (hi : i.inCreate) (hf : Remaining p f) : Remaining p (i :: f)
  /-- `kmalloc` is called, and decides how `task_new` goes on. -/
  | taskNew : Remaining p [.taskNew]
  | readParent (c : TaskRef) : Remaining p [.readParent c]
  | allocBlock {c q : TaskRef} {f : Frame} (hf : Remaining p f) : Remaining p (.allocBlock c q :: f)
  | branch (c : TaskRef) : Remaining p [.branch c p]
  | readRegs (c : TaskRef) : Remaining p [.readRegs c p]

variable {p : TaskRef} {f g : Frame}

theorem Remaining.append (hg : ∀ i ∈ g, i.inCreate) (hf : Remaining p f) : Remaining p (g ++ f) := by
  induction g with
  | nil => exact hf
  | cons i g ih =>
    obtain ⟨hi, hg⟩ := List.forall_mem_cons.mp hg
    exact .plain hi (ih hg)

theorem remaining_taskNewRest (c : TaskRef) (grown : Bool) : Remaining p (taskNewRest c grown) := by
  have hrest : Remaining p [.memset c, KTRACE, .readParent c] := .plain rfl (.plain rfl (.readParent c))
  cases grown
  · exact hrest
  · exact .plain rfl hrest

theorem remaining_threadCreateRest (c : TaskRef) : Remaining p (threadCreateRest c p) :=
  .plain rfl (.plain rfl (.allocBlock (.plain rfl (.plain rfl (.plain rfl (.plain rfl (.branch c)))))))

theorem remaining_copyStackRest (c : TaskRef) (newStack : UInt32) (n : ℕ) (hf : Remaining p f) :
    Remaining p (copyStackRest c newStack n ++ f) := by
  refine .append (fun i hi => ?_) hf
  simp only [copyStackRest, List.mem_append, List.mem_cons, List.not_mem_nil, or_false, List.mem_replicate] at hi
  rcases hi with ((rfl | rfl) | ⟨-, rfl⟩) | rfl | rfl <;> rfl

theorem remaining_setupRest (c : TaskRef) (ctx : Context) : Remaining p (setupRest c ctx) :=
  .plain rfl (.plain rfl (.plain rfl (.plain rfl .sti)))

/-- The CPU is in the section: interrupts are disabled, `p` is still `current`, and on top of
`lower` the rest of the section is to be executed. -/
structure Creating (p : TaskRef) (lower : Stack) (s : State) : Prop where
  flag : s.flag = false
  current : s.current = p
  stack : ∃ f, s.stack = f :: lower ∧ Remaining p f

/-- A statement that leaves nothing open leads on in the section, or ends it. -/
theorem creating_execute (hlevel : LEVEL_TRACE < cfg.level) (h : Creating p lower s)
    {i : Instr} {f : Frame} {below : Stack} (hstack : s.stack = (i :: f) :: below)
    (he : s.execute cfg f below i = some t) (hover : ¬ ThreadCreateOver lower t.stack) : Creating p lower t := by
  obtain ⟨hflag, hcur, g, hg, hrem⟩ := h
  obtain ⟨hgf, rfl⟩ := List.cons.inj (hg.symm.trans hstack)
  subst hgf
  cases hrem with
  | sti =>
    cases he
    exact absurd (Or.inl rfl) hover
  | plain hi hf =>
    have hsec : i.inSection := by cases i <;> first | rfl | cases hi
    have hlog : ∀ level, i = .log level → level < cfg.level := by
      rintro level rfl
      exact (beq_iff_eq.mp hi).symm ▸ hlevel
    have hadvance : i ≠ .advance := by
      rintro rfl
      cases hi
    obtain ⟨w, b, hw, hwflag, hwcur, hwstack, hprint⟩ := execute_inSection s f lower hsec hlog
    obtain rfl := Option.some.inj (hw.symm.trans he)
    refine ⟨hwflag.trans hflag, (hwcur hadvance).trans hcur, b ++ f, hwstack, hf.append fun j hj => ?_⟩
    rw [hprint j hj]
    rfl
  | taskNew | allocBlock hf | readRegs c => cases he
  | readParent c =>
    cases he
    refine ⟨hflag, hcur, _, rfl, ?_⟩
    rw [hcur, List.append_nil]
    exact remaining_threadCreateRest c
  | branch c =>
    simp only [execute, if_pos hcur, Option.some.injEq] at he
    subst he
    exact ⟨hflag, hcur, _, rfl, .plain rfl (.readRegs c)⟩

/-- So does every step: the timer cannot come, and nothing a helper leaves open enables interrupts. -/
theorem creating_step (hlevel : LEVEL_TRACE < cfg.level) (h : Creating p lower s) {a : Act} (hs : s.step cfg a = some t)
    (hover : ¬ ThreadCreateOver lower t.stack) : Creating p lower t := by
  obtain ⟨hflag, hcur, f, hf, hrem⟩ := h
  cases stepped_of_step hs with
  | timer hset => cases hflag.symm.trans hset
  | done hstack =>
    obtain ⟨rfl, -⟩ := List.cons.inj (hf.symm.trans hstack)
    cases hrem
  | execute hstack he => exact creating_execute hlevel ⟨hflag, hcur, f, hf, hrem⟩ hstack he hover
  | user c hstack | capture ebp hstack hpage =>
    obtain ⟨rfl, -⟩ := List.cons.inj (hf.symm.trans hstack)
    cases hrem with
    | plain hi hf => cases hi
  | kmalloc child grown hstack hfresh =>
    obtain ⟨rfl, rfl⟩ := List.cons.inj (hf.symm.trans hstack)
    cases hrem with
    | plain hi hf => cases hi
    | taskNew =>
      refine ⟨hflag, hcur, _, rfl, ?_⟩
      rw [List.append_nil]
      exact remaining_taskNewRest child grown
  | page newStack redirected hstack hfree =>
    obtain ⟨rfl, rfl⟩ := List.cons.inj (hf.symm.trans hstack)
    cases hrem with
    | plain hi hf => cases hi
    | allocBlock hf => exact ⟨hflag, hcur, _, rfl, remaining_copyStackRest _ newStack redirected hf⟩
  | panicNew hstack | panicBlock hstack =>
    obtain ⟨-, rfl⟩ := List.cons.inj (hf.symm.trans hstack)
    exact absurd (Or.inr rfl) hover
  | readRegs ebp hstack hpage =>
    obtain ⟨rfl, rfl⟩ := List.cons.inj (hf.symm.trans hstack)
    cases hrem with
    | plain hi hf => cases hi
    | readRegs c =>
      refine ⟨hflag, hcur, _, rfl, ?_⟩
      rw [List.append_nil]
      exact remaining_setupRest _ _

/-- Where `KTRACE` is filtered, interrupts stay disabled from the section's `cli` on. -/
theorem threadCreate_unbroken (hlevel : LEVEL_TRACE < cfg.level) (hstack : s.stack = [.cli, .taskNew] :: lower)
    (hcli : s.step cfg .step = some t) : t.Unbroken cfg (ThreadCreateOver lower) := by
  intro u hu
  have hstart : Creating t.current lower t := by
    simp only [step, hstack, execute, Option.some.injEq] at hcli
    subst hcli
    exact ⟨rfl, rfl, _, rfl, .taskNew⟩
  have hstep : ∀ v a w, Creating t.current lower v → (schedMachine cfg).step v a = some w →
      ¬ ThreadCreateOver lower w.stack → Creating t.current lower w := by
    intro v a w h hs hover
    exact creating_step hlevel h hs hover
  exact (hu.invariant hstep hstart).flag

/-- Where the invariant holds, no child is half built when interrupts are enabled. -/
theorem timer_of_halfBuilt (h : s.Inv) (hs : s.HalfBuilt) : s.step cfg .timer = none := by
  obtain ⟨c, hc, hne, hnone⟩ := hs
  obtain ⟨-, k, σ, -, hσ⟩ := h
  refine if_neg fun hflag => ?_
  obtain rfl := hσ.eq_free hflag
  have hstored := hσ.2 c hc hne fun hf => hf
  rw [hnone] at hstored
  cases hstored

end State

/-- With log calls printed, task `1` creates task `2`, up to the point where it is in the list. -/
def linkActs : List Act :=
  .user .threadCreate :: List.replicate 9 .step ++ .kmalloc 2 false :: List.replicate 19 .step ++
    .page 0x400000 0 :: List.replicate 34 .step

theorem linkActs_run {cfg : Config} (hlevel : cfg.level ≤ LEVEL_TRACE) :
    ((schedMachine cfg).run sampleInit linkActs).map (fun s => (s.flag, s.tasks, s.owner, s.stored)) =
      some (true, [1, 2], 1, []) := by
  have hcases := Nat.le_one_iff_eq_zero_or_eq_one.mp hlevel
  obtain ⟨level, switchEip, createEip, hne⟩ := cfg
  rcases hcases with rfl | rfl
  · rfl
  · rfl

/-- Up to the section's `cli`. -/
def toCliActs : List Act := .user .threadCreate :: List.replicate 8 .step

/-- The task's own code, to return to. -/
def sampleLower : Stack := [[.user, .cli, .halt]]

theorem toCliActs_run {cfg : Config} (hlevel : cfg.level ≤ LEVEL_TRACE) :
    ((schedMachine cfg).run sampleInit toCliActs).map (fun s => (s.stack, s.tasks)) =
      some ([.cli, .taskNew] :: sampleLower, [1]) := by
  have hcases := Nat.le_one_iff_eq_zero_or_eq_one.mp hlevel
  obtain ⟨level, switchEip, createEip, hne⟩ := cfg
  rcases hcases with rfl | rfl
  · rfl
  · rfl

/-- Where `KTRACE` is not filtered, the first log call in the section, in `task_new`, enables interrupts. -/
theorem section_enables {cfg : Config} (hlevel : cfg.level ≤ LEVEL_TRACE) :
    ∃ s t u, (schedMachine cfg).run sampleInit toCliActs = some s ∧ s.stack = [.cli, .taskNew] :: sampleLower ∧
      s.step cfg .step = some t ∧
      (schedMachine cfg).Within (fun w => ¬ State.ThreadCreateOver sampleLower w.stack) t u ∧ u.flag = true := by
  obtain ⟨s, hs, hl⟩ := Option.map_eq_some_iff.mp (toCliActs_run hlevel)
  simp only [Prod.mk.injEq] at hl
  obtain ⟨hstack, htasks⟩ := hl
  have hne : ∀ g : Frame, ¬ State.ThreadCreateOver sampleLower (g :: [.readParent 2] :: sampleLower) := by
    rintro g (h | h) <;> simp [sampleLower] at h
  have hne' : ∀ (i : Instr) (g : Frame), i ≠ .klog →
      ¬ State.ThreadCreateOver sampleLower ((i :: g) :: sampleLower) := by
    rintro i g hi (h | h) <;> simp_all [KPANIC]
  let t : State := { s.goto ([.taskNew] :: sampleLower) with flag := false }
  have hmalloc : (schedMachine cfg).step t (.kmalloc 2 false) =
      some (t.goto ([.memset 2, KTRACE, .readParent 2] :: sampleLower)) := by
    refine if_neg ?_
    show 2 ∉ s.tasks
    rw [htasks]
    decide
  have hlog : (schedMachine cfg).step
      ((t.goto ([KTRACE, .readParent 2] :: sampleLower)).modify 2 fun _ => ⟨0, 0, 0, 0, 0, 0⟩) .step =
        some ((t.goto (KLOG :: [.readParent 2] :: sampleLower)).modify 2 fun _ => ⟨0, 0, 0, 0, 0, 0⟩) :=
    if_pos hlevel
  obtain ⟨u, hu, hflag⟩ := State.klog_enables cfg (t.modify 2 fun _ => ⟨0, 0, 0, 0, 0, 0⟩) [.readParent 2] _ hne
  refine ⟨s, t, u, hs, hstack, by simp only [State.step, hstack, State.execute, t], ?_, hflag⟩
  refine .head (hne' _ _ (by decide)) hmalloc ?_
  refine .head (o := .step) (hne' _ _ (by decide)) rfl ?_
  exact .head (hne' _ _ (by decide)) hlog hu

/-- Where `KTRACE` is not filtered, the timer may come when the child is half built. -/
theorem halfBuilt_reached {cfg : Config} (hlevel : cfg.level ≤ LEVEL_TRACE) :
    ∃ s t, (schedMachine cfg).run sampleInit linkActs = some s ∧ s.HalfBuilt ∧ s.step cfg .timer = some t := by
  obtain ⟨s, hs, hl⟩ := Option.map_eq_some_iff.mp (linkActs_run hlevel)
  simp only [Prod.mk.injEq] at hl
  obtain ⟨hflag, htasks, howner, hstored⟩ := hl
  refine ⟨s, s.interrupt, hs, ⟨2, ?_, ?_, ?_⟩, if_pos hflag⟩
  · rw [htasks]
    decide
  · rw [howner]
    decide
  · rw [State.lastStored, hstored]
    rfl

/-- **Log calls break sections** exactly where they are not filtered. -/
theorem sections_unbroken_iff (cfg : Config) :
    (∀ (s : State) (body rest : Frame) (lower : Stack), s.flag = false → s.stack = (body ++ .sti :: rest) :: lower →
      (∀ i ∈ body, i.inSection) →
        (s.Unbroken cfg (· = rest :: lower) ↔ ∀ level, .log level ∈ body → level < cfg.level)) ∧
    ((∀ root heap acts s t lower, (schedMachine cfg).run (State.init root heap) acts = some s →
      s.stack = [.cli, .taskNew] :: lower → s.step cfg .step = some t →
        t.Unbroken cfg (State.ThreadCreateOver lower)) ↔ LEVEL_TRACE < cfg.level) ∧
    ((∀ root heap acts s, (schedMachine cfg).run (State.init root heap) acts = some s → s.HalfBuilt →
      s.step cfg .timer = none) ↔ LEVEL_TRACE < cfg.level) := by
  refine ⟨fun s body rest lower hflag hstack hbody => State.unbroken_iff hflag hstack hbody, ⟨fun h => ?_, ?_⟩,
    fun h => ?_, ?_⟩
  · refine Nat.lt_of_not_le fun hlevel => ?_
    obtain ⟨s, t, u, hs, hstack, ht, hu, hflag⟩ := section_enables hlevel
    cases hflag.symm.trans (h 1 _ toCliActs s t sampleLower hs hstack ht u hu)
  · intro hlevel root heap acts s t lower _ hstack ht
    exact State.threadCreate_unbroken hlevel hstack ht
  · refine Nat.lt_of_not_le fun hlevel => ?_
    obtain ⟨s, t, hs, hhalf, ht⟩ := halfBuilt_reached hlevel
    cases ht.symm.trans (h 1 _ linkActs s hs hhalf)
  · intro hlevel root heap acts s hs hhalf
    exact State.timer_of_halfBuilt (State.inv_of_run hlevel hs) hhalf

/-- At the `LOG_LEVEL` of the repository `KTRACE` keeps a section whole, and `KINFO` does not. -/
theorem sections_unbroken_sample :
    State.Unbroken sampleConfig ⟨false, [[KTRACE, .sti]], 1, [1], 1, fun _ => ⟨0, 0, 0, 0, 0, 0⟩, fun _ => none, []⟩
      (· = [[]]) ∧
      ¬ State.Unbroken sampleConfig
        ⟨false, [[.log LEVEL_INFO, .sti]], 1, [1], 1, fun _ => ⟨0, 0, 0, 0, 0, 0⟩, fun _ => none, []⟩ (· = [[]]) := by
  refine ⟨((sections_unbroken_iff sampleConfig).1 _ [KTRACE] [] [] rfl rfl (by decide)).mpr fun level hl => ?_,
    fun h => ?_⟩
  · cases List.mem_singleton.mp hl
    decide
  · have hlt := ((sections_unbroken_iff sampleConfig).1 _ [.log LEVEL_INFO] [] [] rfl rfl (by decide)).mp h LEVEL_INFO
      (List.mem_singleton.mpr rfl)
    exact absurd hlt (by decide)

/-- The configuration of the repository, but at `LEVEL_TRACE`. -/
def traceConfig : Config := { sampleConfig with level := LEVEL_TRACE }

/-- The timer comes until the slice of task `1` is used up, and `task_switch` switches. -/
def switchActs : List Act :=
  (List.replicate 50 (.timer :: List.replicate 4 .step)).flatten ++
    [.timer, .step, .step, .regs 0xC07FFE00 0xC07FFE10] ++ List.replicate 5 .step

/-- At `LEVEL_TRACE`, `task_switch` selects the half-built child and is about to jump to its
registers, all 0. -/
theorem section_broken :
    ∃ s t, (schedMachine traceConfig).run sampleInit linkActs = some s ∧ s.HalfBuilt ∧
      (schedMachine traceConfig).run s switchActs = some t ∧ t.current = 2 ∧ t.lastStored 2 = none ∧
      t.stack.head? = some [.performTaskSwitch, .iret true] ∧ (t.task 2).context = ⟨0, 0, 0⟩ := by
  obtain ⟨s, -, hs, hhalf, -⟩ := @halfBuilt_reached traceConfig le_rfl
  have hrun : (((schedMachine traceConfig).run sampleInit linkActs).bind fun s =>
      ((schedMachine traceConfig).run s switchActs).map fun t =>
        (t.current, t.lastStored 2, t.stack.head?, (t.task 2).context)) =
      some (2, none, some [.performTaskSwitch, .iret true], ⟨0, 0, 0⟩) := by
    decide +kernel
  rw [hs, Option.bind_some] at hrun
  obtain ⟨t, ht, hl⟩ := Option.map_eq_some_iff.mp hrun
  simp only [Prod.mk.injEq] at hl
  exact ⟨s, t, hs, hhalf, ht, hl⟩

end MoltarOS.Sched
