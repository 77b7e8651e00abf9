import MoltarOS.Lib.RoundRobin
import MoltarOS.Sched.Context

/-!
# Round robin

The list of tasks, read from `current` on and around, is a ring (`Lib.RoundRobin`):
`task_switch` passes the turn on, and `thread_create` puts the child behind the head.

## What is proved

* `ring_simulates` — every run of the scheduler is, for its list of tasks, a run of the ring.
* `round_robin` — so between two selections of a task every other task is selected once.
-/

namespace MoltarOS.Sched

open MoltarOS.Lib

namespace State

variable {s t : State} {cfg : Config}

/-- The tasks, from `current` on and around. -/
def ring (s : State) : List TaskRef := s.tasks.dropWhile (· ≠ s.current) ++ s.tasks.takeWhile (· ≠ s.current)

/-- What a step does to the ring. -/
def ringOps (s : State) : Act → List (RingOp TaskRef)
  | .step =>
    match s.stack with
    | (.advance :: _) :: _ => [.next]
    | (.insertAfter _ child :: _) :: _ => [.spawn child]
    | _ => []
  | _ => []

/-- The task a step selects, if it does. -/
def selects (s : State) : Act → List TaskRef
  | .step =>
    match s.stack with
    | (.advance :: _) :: _ => [s.successor]
    | _ => []
  | _ => []

/-! ### The list around `current` -/

/-- The list splits at `current`. -/
theorem Data.split (h : s.Data) : ∃ pre post, s.tasks = pre ++ s.current :: post ∧ s.current ∉ pre :=
  List.eq_append_cons_of_mem h.current_mem

theorem dropWhile_ne {pre post : List TaskRef} {u : TaskRef} (hpre : u ∉ pre) :
    (pre ++ u :: post).dropWhile (· ≠ u) = u :: post ∧ (pre ++ u :: post).takeWhile (· ≠ u) = pre := by
  have hne : ∀ v ∈ pre, decide (v ≠ u) = true := fun v hv => decide_eq_true fun he => hpre (he ▸ hv)
  rw [List.dropWhile_append_of_pos hne, List.takeWhile_append_of_pos hne]
  simp

theorem ring_eq {pre post : List TaskRef} (h : s.tasks = pre ++ s.current :: post) (hpre : s.current ∉ pre) :
    s.ring = s.current :: post ++ pre := by
  rw [ring, h, (dropWhile_ne hpre).1, (dropWhile_ne hpre).2]

theorem successor_eq {pre post : List TaskRef} (h : s.tasks = pre ++ s.current :: post) (hpre : s.current ∉ pre) :
    s.successor = (post ++ pre).headD s.current := by
  rw [successor, listNext, h, (dropWhile_ne hpre).1, List.tail_cons]
  cases post with
  | nil => cases pre <;> rfl
  | cons u post => rfl

theorem listInsertAfter_eq {pre post : List TaskRef} {p c : TaskRef} (hpre : p ∉ pre) :
    listInsertAfter (pre ++ p :: post) p c = pre ++ p :: c :: post := by
  induction pre with
  | nil => rw [List.nil_append, listInsertAfter, if_pos rfl, List.nil_append]
  | cons u pre ih =>
    rw [List.mem_cons, not_or] at hpre
    rw [List.cons_append, listInsertAfter, if_neg (Ne.symm hpre.1), ih hpre.2, List.cons_append]

/-- The ring when the turn passes on. -/
theorem ring_advance (hd : s.Data) (htasks : t.tasks = s.tasks) (hcurrent : t.current = s.successor) :
    ∃ r, s.ring = s.current :: r ∧ t.ring = r ++ [s.current] ∧ s.successor = r.headD s.current := by
  obtain ⟨pre, post, hsplit, hpre⟩ := hd.split
  refine ⟨post ++ pre, ring_eq hsplit hpre, ?_, successor_eq hsplit hpre⟩
  have hnodup := hd.nodup
  rw [hsplit] at hnodup
  rw [successor_eq hsplit hpre] at hcurrent
  cases post with
  | cons v post =>
    -- the next task of the list
    have hcur : t.current = v := hcurrent
    have hv : v ∉ pre ++ [s.current] := by
      rw [← List.singleton_append, ← List.append_assoc] at hnodup
      exact fun hmem => (List.nodup_append.mp hnodup).2.2 v hmem v List.mem_cons_self rfl
    have hsplit' : t.tasks = (pre ++ [s.current]) ++ t.current :: post := by rw [htasks, hsplit, hcur]; simp
    rw [ring_eq hsplit' (hcur ▸ hv), hcur]
    simp
  | nil =>
    cases pre with
    | nil =>
      -- a lone task
      have hcur : t.current = s.current := hcurrent
      have hsplit' : t.tasks = [] ++ t.current :: [] := by rw [htasks, hsplit, hcur]
      rw [ring_eq hsplit' List.not_mem_nil, hcur]
      rfl
    | cons v pre =>
      -- the first, after the last
      have hcur : t.current = v := hcurrent
      have hsplit' : t.tasks = [] ++ t.current :: (pre ++ [s.current]) := by rw [htasks, hsplit, hcur]; rfl
      rw [ring_eq hsplit' List.not_mem_nil, hcur]
      simp

/-- The ring when a child comes in. -/
theorem ring_insertAfter (hd : s.Data) {c : TaskRef} (htasks : t.tasks = listInsertAfter s.tasks s.current c)
    (hcurrent : t.current = s.current) : ∃ r, s.ring = s.current :: r ∧ t.ring = s.current :: c :: r := by
  obtain ⟨pre, post, hsplit, hpre⟩ := hd.split
  refine ⟨post ++ pre, ring_eq hsplit hpre, ?_⟩
  rw [hsplit, listInsertAfter_eq hpre, ← hcurrent] at htasks
  rw [ring_eq htasks (hcurrent ▸ hpre), hcurrent]
  rfl

/-! ### Steps -/

/-- What a statement does to the list. -/
theorem execute_list {i : Instr} {rest : Frame} {lower : Stack} (he : s.execute cfg rest lower i = some t) :
    (i = .advance ∧ t.tasks = s.tasks ∧ t.current = s.successor) ∨
    (∃ p c, i = .insertAfter p c ∧ t.tasks = listInsertAfter s.tasks p c ∧ t.current = s.current) ∨
    ((∀ p c, i ≠ .insertAfter p c) ∧ i ≠ .advance ∧ t.tasks = s.tasks ∧ t.current = s.current) := by
  cases i <;> simp only [execute, Option.some.injEq, reduceCtorEq] at he
  case advance =>
    subst he
    exact Or.inl ⟨rfl, rfl, rfl⟩
  case insertAfter p c =>
    subst he
    exact Or.inr (Or.inl ⟨p, c, rfl, rfl, rfl⟩)
  case performTaskSwitch =>
    obtain ⟨⟨u, stack⟩, -, rfl⟩ := Option.map_eq_some_iff.mp he
    exact Or.inr (Or.inr ⟨by simp, by simp, rfl, rfl⟩)
  case log | taskSwitch | branch =>
    split_ifs at he <;> cases he <;> exact Or.inr (Or.inr ⟨by simp, by simp, rfl, rfl⟩)
  all_goals
    subst he
    exact Or.inr (Or.inr ⟨by simp, by simp, rfl, rfl⟩)

theorem ring_perm (hd : s.Data) : s.ring.Perm s.tasks := by
  obtain ⟨pre, post, hsplit, hpre⟩ := hd.split
  rw [ring_eq hsplit hpre, hsplit]
  exact List.perm_append_comm

/-- A step is at most one operation of the ring. -/
inductive RingStep (s t : State) (a : Act) : Prop where
  /-- Nothing happens to the ring. -/
  | none (hops : s.ringOps a = []) (hsel : s.selects a = []) (hring : t.ring = s.ring)
  /-- The turn passes on. -/
  | next (r : List TaskRef) (hops : s.ringOps a = [.next]) (hsel : s.selects a = [r.headD s.current])
    (hring : s.ring = s.current :: r) (hring' : t.ring = r ++ [s.current])
  /-- A child comes in. -/
  | spawn (r : List TaskRef) (c : TaskRef) (hops : s.ringOps a = [.spawn c]) (hsel : s.selects a = [])
    (hring : s.ring = s.current :: r) (hc : c ∉ s.ring) (hring' : t.ring = s.current :: c :: r)

theorem ring_congr (htasks : t.tasks = s.tasks) (hcurrent : t.current = s.current) : t.ring = s.ring := by
  rw [ring, ring, htasks, hcurrent]

/-- Only statements change the list. -/
theorem RingStep.same {a : Act} (ha : a ≠ .step) (htasks : t.tasks = s.tasks) (hcurrent : t.current = s.current) :
    s.RingStep t a := by
  refine .none ?_ ?_ (ring_congr htasks hcurrent)
  · cases a <;> first | rfl | exact absurd rfl ha
  · cases a <;> first | rfl | exact absurd rfl ha

theorem ringStep (h : s.Inv) {a : Act} (hs : s.step cfg a = some t) : s.RingStep t a := by
  cases stepped_of_step hs with
  | done hstack => exact .none (by rw [ringOps, hstack]) (by rw [selects, hstack]) rfl
  | @execute i rest lower _ hstack he =>
    rcases execute_list he with ⟨rfl, htasks, hcurrent⟩ | ⟨p, c, rfl, htasks, hcurrent⟩ | ⟨hne, hne', htasks, hcurrent⟩
    · obtain ⟨r, hring, hring', hsucc⟩ := ring_advance h.data htasks hcurrent
      exact .next r (by rw [ringOps, hstack]) (by rw [selects, hstack, hsucc]) hring hring'
    · obtain ⟨k, σ, ρ, hσ, hi, -, -⟩ := h.top hstack
      cases hi
      have hcur : s.owner = s.current := hσ.1.2.1.symm
      rw [hcur] at htasks
      obtain ⟨r, hring, hring'⟩ := ring_insertAfter h.data htasks hcurrent
      refine .spawn r c (by rw [ringOps, hstack]) (by rw [selects, hstack]) hring (fun hmem => ?_) hring'
      exact hσ.2.1 ((ring_perm h.data).subset hmem)
    · refine .none ?_ ?_ (ring_congr htasks hcurrent)
      · simp only [ringOps, hstack]
        split
        · next heq => simp_all
        · next heq => simp_all
        · rfl
      · simp only [selects, hstack]
        split
        · next heq => simp_all
        · rfl
  | user c hstack => exact .same (by simp) (by cases c <;> rfl) (by cases c <;> rfl)
  | capture ebp hstack hpage =>
    rw [captured, if_pos cfg.switch_ne]
    exact .same (by simp) rfl rfl
  | _ => exact .same (by simp) rfl rfl

/-- The ring's machine makes the step. -/
theorem RingStep.run {a : Act} (h : s.RingStep t a) : (ringMachine TaskRef).run s.ring (s.ringOps a) = some t.ring := by
  cases h with
  | none hops hsel hring => rw [hops, hring, Machine.run_nil]
  | next r hops hsel hring hring' =>
    rw [hops, hring, Machine.run_cons]
    exact ⟨_, rfl, by rw [hring', Machine.run_nil]⟩
  | spawn r c hops hsel hring hc hring' =>
    rw [hops, hring, Machine.run_cons]
    rw [hring] at hc
    exact ⟨_, if_neg hc, by rw [hring', Machine.run_nil]⟩

/-- The task selected is the one whose turn it becomes. -/
theorem RingStep.turns {a : Act} (h : s.RingStep t a) (ops : List (RingOp TaskRef)) :
    Ring.turns s.ring (s.ringOps a ++ ops) = s.selects a ++ Ring.turns t.ring ops := by
  cases h with
  | none hops hsel hring => rw [hops, hsel, hring, List.nil_append, List.nil_append]
  | next r hops hsel hring hring' =>
    rw [hops, hsel, hring, hring']
    rfl
  | spawn r c hops hsel hring hc hring' =>
    rw [hops, hsel, hring, hring']
    rfl

/-! ### Runs -/

variable (hlevel : LEVEL_TRACE < cfg.level)

include hlevel

/-- **The scheduler's list is a ring** in which the turn passes on. -/
theorem ring_simulates (h : s.Inv) {acts : List Act} (hr : (schedMachine cfg).run s acts = some t) :
    (ringMachine TaskRef).run s.ring ((schedMachine cfg).trace ringOps s acts) = some t.ring :=
  (schedMachine cfg).simulates (fun _ _ _ hi hs => step_inv hlevel hi hs) (fun _ _ _ hi hs => (ringStep hi hs).run) h hr

theorem turns_trace (h : s.Inv) {acts : List Act} (hr : (schedMachine cfg).run s acts = some t) :
    Ring.turns s.ring ((schedMachine cfg).trace ringOps s acts) = (schedMachine cfg).trace selects s acts := by
  induction acts generalizing s with
  | nil =>
    rw [Machine.trace_nil, Machine.trace_nil]
    cases s.ring <;> rfl
  | cons a acts ih =>
    obtain ⟨w, hw, ht⟩ := (schedMachine cfg).run_cons.mp hr
    rw [Machine.trace_cons _ ringOps hw, Machine.trace_cons _ selects hw, (ringStep h hw).turns,
      ih (step_inv hlevel h hw) ht]

end State

/-- Task `1` yields to task `2`, which starts and yields back. -/
def pingPongActs : List Act :=
  yieldActs 0xC07FFE00 0xC07FFE10 ++ List.replicate 4 .step ++ yieldActs 0x7FFE00 0x7FFE10

open State in
/-- **Round robin**: `current` is in the list, and from a selection of a task to the next one of the
same task every other task is selected exactly once. -/
theorem round_robin {cfg : Config} (hlevel : cfg.level = LEVEL_INFO) {root : TaskRef} {heap : TaskRef → Task}
    {acts : List Act} {s : State} (h : (schedMachine cfg).run (State.init root heap) acts = some s) :
    s.current ∈ s.tasks ∧
      ∀ acts' t, (schedMachine cfg).run s acts' = some t →
        ∀ others, (schedMachine cfg).trace selects s acts' = others ++ [s.current] → s.current ∉ others →
          ∀ u ∈ s.tasks, u ≠ s.current → others.count u = 1 := by
  have hlevel' : LEVEL_TRACE < cfg.level := by rw [hlevel]; decide
  have hinv := inv_of_run hlevel' h
  refine ⟨hinv.data.current_mem, fun acts' t hr others hsel hnot u hu hne => ?_⟩
  obtain ⟨pre, post, hsplit, hpre⟩ := hinv.data.split
  have hring := ring_eq hsplit hpre
  have hperm := ring_perm hinv.data
  have hnodup := hperm.nodup_iff.mpr hinv.data.nodup
  have hrun := ring_simulates hlevel' hinv hr
  have hturns := turns_trace hlevel' hinv hr
  have hmem := hperm.mem_iff.mpr hu
  rw [hsel] at hturns
  rw [hring] at hrun hturns hnodup hmem
  exact Ring.round hnodup hrun hturns hnot u ((List.mem_cons.mp hmem).resolve_left hne)

open State in
/-- Tasks `1` and `2` yield to each other. -/
theorem round_robin_sample :
    ∃ s t, (schedMachine sampleConfig).run sampleInit createActs = some s ∧
      (schedMachine sampleConfig).run s pingPongActs = some t ∧ s.current = 1 ∧
      (schedMachine sampleConfig).trace selects s pingPongActs = [2] ++ [s.current] ∧ [2].count 2 = 1 := by
  have hrun : (((schedMachine sampleConfig).run sampleInit createActs).bind fun s =>
      ((schedMachine sampleConfig).run s pingPongActs).map fun _ =>
        (s.current, s.tasks, (schedMachine sampleConfig).trace selects s pingPongActs)) = some (1, [1, 2], [2, 1]) := by
    decide +kernel
  obtain ⟨s, hs, ht⟩ := Option.bind_eq_some_iff.mp hrun
  obtain ⟨t, ht, hl⟩ := Option.map_eq_some_iff.mp ht
  rw [Prod.mk.injEq, Prod.mk.injEq] at hl
  obtain ⟨hcurrent, htasks, htrace⟩ := hl
  rw [← hcurrent] at htrace
  refine ⟨s, t, hs, ht, hcurrent, htrace, ?_⟩
  refine (round_robin rfl hs).2 pingPongActs t ht [2] htrace ?_ 2 ?_ ?_
  · rw [hcurrent]
    decide
  · rw [htasks]
    decide
  · rw [hcurrent]
    decide

end MoltarOS.Sched
