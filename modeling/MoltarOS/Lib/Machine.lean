import Mathlib.Data.List.Basic

/-!
# Guarded machines

A system that takes one labelled step after another, the label saying which step
and resolving whatever the step leaves open. A step that is not enabled gives
`none`. A run is a list of labels all of whose steps are enabled.

`Machine.invariant` is the rule every safety result uses: what the start satisfies
and each step preserves holds at the end of every run.
-/

namespace MoltarOS.Lib

universe u v

/-- States `σ`, labels `ω`, and the partial step function. -/
structure Machine (σ : Type u) (ω : Type v) where
  /-- One step, `none` where it is not enabled. -/
  step : σ → ω → Option σ

namespace Machine

variable {σ : Type u} {ω : Type v} (M : Machine σ ω)

/-- Take the steps of a list of labels in order. -/
def run : σ → List ω → Option σ
  | s, [] => some s
  | s, o :: os => (M.step s o).bind fun t => run t os

@[simp] theorem run_nil (s : σ) : M.run s [] = some s := rfl

theorem run_cons {s u : σ} {o : ω} {os : List ω} :
    M.run s (o :: os) = some u ↔ ∃ t, M.step s o = some t ∧ M.run t os = some u := by
  rw [run, Option.bind_eq_some_iff]

theorem run_append {s u : σ} {os ps : List ω} :
    M.run s (os ++ ps) = some u ↔ ∃ t, M.run s os = some t ∧ M.run t ps = some u := by
  induction os generalizing s with
  | nil => simp
  | cons o os ih =>
    simp only [List.cons_append, run_cons, ih]
    constructor
    · rintro ⟨t, ht, w, hw, hu⟩
      exact ⟨w, ⟨t, ht, hw⟩, hu⟩
    · rintro ⟨w, ⟨t, ht, hw⟩, hu⟩
      exact ⟨t, ht, w, hw, hu⟩

/-- What `f` reports of the steps of a run, in order. -/
def trace {ε : Type*} (f : σ → ω → List ε) : σ → List ω → List ε
  | _, [] => []
  | s, o :: os => f s o ++ (M.step s o).elim [] fun t => trace f t os

@[simp] theorem trace_nil {ε : Type*} (f : σ → ω → List ε) (s : σ) : M.trace f s [] = [] := rfl

theorem trace_cons {ε : Type*} (f : σ → ω → List ε) {s t : σ} {o : ω} {os : List ω} (h : M.step s o = some t) :
    M.trace f s (o :: os) = f s o ++ M.trace f t os := by
  rw [trace, h]
  rfl

/-- **The invariant rule**: what every step preserves, every run preserves. -/
theorem invariant {I : σ → Prop} (hstep : ∀ s o t, I s → M.step s o = some t → I t)
    {s t : σ} {os : List ω} (hs : I s) (h : M.run s os = some t) : I t := by
  induction os generalizing s with
  | nil =>
    rw [run_nil, Option.some.injEq] at h
    exact h ▸ hs
  | cons o os ih =>
    obtain ⟨w, hw, ht⟩ := M.run_cons.mp h
    exact ih (hstep s o w hs hw) ht

/-- The invariant rule for runs whose labels all satisfy `P`. -/
theorem invariant_of_labels {I : σ → Prop} {P : ω → Prop} (hstep : ∀ s o t, I s → P o → M.step s o = some t → I t)
    {s t : σ} {os : List ω} (hs : I s) (hP : ∀ o ∈ os, P o) (h : M.run s os = some t) : I t := by
  induction os generalizing s with
  | nil =>
    rw [run_nil, Option.some.injEq] at h
    exact h ▸ hs
  | cons o os ih =>
    obtain ⟨ho, hos⟩ := List.forall_mem_cons.mp hP
    obtain ⟨w, hw, ht⟩ := M.run_cons.mp h
    exact ih (hstep s o w hs ho hw) hos ht

/-- Where every step is enabled, so is every run. -/
theorem run_total {I : σ → Prop} (hstep : ∀ s o, I s → ∃ t, M.step s o = some t ∧ I t) {s : σ} (hs : I s)
    (os : List ω) :
    ∃ t, M.run s os = some t ∧ I t := by
  induction os generalizing s with
  | nil => exact ⟨s, rfl, hs⟩
  | cons o os ih =>
    obtain ⟨w, hw, hI⟩ := hstep s o hs
    obtain ⟨t, ht, hI'⟩ := ih hI
    exact ⟨t, M.run_cons.mpr ⟨w, hw, ht⟩, hI'⟩

/-- **The history rule**: a relation to what has been reported so far, which every step keeps when it adds to the
report. -/
theorem invariant_trace {ε : Type*} {f : σ → ω → List ε} {I : σ → List ε → Prop}
    (hstep : ∀ s o t es, I s es → M.step s o = some t → I t (es ++ f s o))
    {s t : σ} {os : List ω} {es : List ε} (hs : I s es) (h : M.run s os = some t) : I t (es ++ M.trace f s os) := by
  induction os generalizing s es with
  | nil =>
    rw [run_nil, Option.some.injEq] at h
    rw [trace_nil, List.append_nil]
    exact h ▸ hs
  | cons o os ih =>
    obtain ⟨w, hw, ht⟩ := M.run_cons.mp h
    rw [M.trace_cons f hw, ← List.append_assoc]
    exact ih (hstep s o w es hs hw) ht

/-- **The until rule**: where each step from `P` leads to `P` or to `Q`, a run that begins in `P` ends there or passes
through `Q`. -/
theorem run_until {P Q : σ → Prop} (hstep : ∀ s o t, P s → M.step s o = some t → P t ∨ Q t)
    {s t : σ} {os : List ω} (hs : P s) (h : M.run s os = some t) :
    P t ∨ ∃ pre post w, os = pre ++ post ∧ M.run s pre = some w ∧ M.run w post = some t ∧ Q w := by
  induction os generalizing s with
  | nil =>
    rw [run_nil, Option.some.injEq] at h
    exact Or.inl (h ▸ hs)
  | cons o os ih =>
    obtain ⟨w, hw, ht⟩ := M.run_cons.mp h
    rcases hstep s o w hs hw with hP | hQ
    · refine (ih hP ht).imp_right ?_
      rintro ⟨pre, post, u, rfl, hpre, hpost, hu⟩
      exact ⟨o :: pre, post, u, rfl, M.run_cons.mpr ⟨w, hw, hpre⟩, hpost, hu⟩
    · exact Or.inr ⟨[o], os, w, rfl, M.run_cons.mpr ⟨w, hw, M.run_nil w⟩, ht, hQ⟩

/-- Every step of a run satisfies `P`, of the state before it and its label. -/
def Each (P : σ → ω → Prop) : σ → List ω → Prop
  | _, [] => True
  | s, o :: os => P s o ∧ ∀ t, M.step s o = some t → Each P t os

/-- It can be checked by running. -/
instance decidableEach {P : σ → ω → Prop} [∀ s o, Decidable (P s o)] :
    (s : σ) → (os : List ω) → Decidable (M.Each P s os)
  | _, [] => inferInstanceAs (Decidable True)
  | s, o :: os =>
    match h : M.step s o with
    | none => decidable_of_iff (P s o) ⟨fun hp => ⟨hp, fun t ht => by rw [h] at ht; cases ht⟩, fun heach => heach.1⟩
    | some t =>
      have : Decidable (M.Each P t os) := decidableEach t os
      decidable_of_iff (P s o ∧ M.Each P t os)
        ⟨fun hp => ⟨hp.1, fun u hu => Option.some.inj (h.symm.trans hu) ▸ hp.2⟩, fun heach => ⟨heach.1, heach.2 t h⟩⟩

/-- **The rule for exact conditions**: where `P` of a step is what keeps `K`, and nothing brings it back,
`P` of every step is what keeps it along a run. -/
theorem each_iff {I K : σ → Prop} {P : σ → ω → Prop} (hinv : ∀ s o t, I s → M.step s o = some t → I t)
    (hstep : ∀ s o t, I s → M.step s o = some t → (K t ↔ K s ∧ P s o))
    {s t : σ} {os : List ω} (hs : I s) (h : M.run s os = some t) : K t ↔ K s ∧ M.Each P s os := by
  induction os generalizing s with
  | nil =>
    rw [run_nil, Option.some.injEq] at h
    rw [h, Each, and_true]
  | cons o os ih =>
    obtain ⟨w, hw, ht⟩ := M.run_cons.mp h
    rw [ih (hinv s o w hs hw) ht, hstep s o w hs hw, Each, and_assoc]
    refine and_congr_right fun _ => and_congr_right fun _ => ⟨fun heach w' hw' => ?_, fun heach => heach w hw⟩
    obtain rfl : w = w' := Option.some.inj (hw.symm.trans hw')
    exact heach

/-- **The rule for two conditions**: where they are the same as long as `I` holds, and a step that meets them keeps
`I`, they are the same along a run. -/
theorem each_congr {I : σ → Prop} {P Q : σ → ω → Prop} (hiff : ∀ s o t, I s → M.step s o = some t → (P s o ↔ Q s o))
    (hinv : ∀ s o t, I s → M.step s o = some t → Q s o → I t)
    {s t : σ} {os : List ω} (hs : I s) (h : M.run s os = some t) : M.Each P s os ↔ M.Each Q s os := by
  induction os generalizing s with
  | nil => exact Iff.rfl
  | cons o os ih =>
    obtain ⟨w, hw, ht⟩ := M.run_cons.mp h
    rw [Each, Each, hiff s o w hs hw]
    refine and_congr_right fun hq => forall_congr' fun w' => imp_congr_right fun hw' => ?_
    obtain rfl : w = w' := Option.some.inj (hw.symm.trans hw')
    exact ih (hinv s o w hs hw hq) ht

/-- What grows by one in every step counts the steps. -/
theorem count_of_run {f : σ → ℕ} (hstep : ∀ s o t, M.step s o = some t → f t = f s + 1) {s t : σ} {os : List ω}
    (h : M.run s os = some t) : f t = f s + os.length := by
  induction os generalizing s with
  | nil =>
    rw [run_nil, Option.some.injEq] at h
    rw [h, List.length_nil, Nat.add_zero]
  | cons o os ih =>
    obtain ⟨w, hw, ht⟩ := M.run_cons.mp h
    rw [ih ht, hstep s o w hw, List.length_cons, Nat.add_right_comm, Nat.add_assoc]

/-- **The simulation rule**: where each step is matched by some steps of another machine, a
run is matched by a run. -/
theorem simulates {τ ν : Type*} {N : Machine τ ν} {I : σ → Prop} {abs : σ → τ} {ops : σ → ω → List ν}
    (hinv : ∀ s o t, I s → M.step s o = some t → I t)
    (hstep : ∀ s o t, I s → M.step s o = some t → N.run (abs s) (ops s o) = some (abs t))
    {s t : σ} {os : List ω} (hs : I s) (h : M.run s os = some t) : N.run (abs s) (M.trace ops s os) = some (abs t) := by
  induction os generalizing s with
  | nil =>
    rw [run_nil, Option.some.injEq] at h
    rw [h, trace_nil, run_nil]
  | cons o os ih =>
    obtain ⟨w, hw, ht⟩ := M.run_cons.mp h
    rw [M.trace_cons ops hw, N.run_append]
    exact ⟨abs w, hstep s o w hs hw, ih (hinv s o w hs hw) ht⟩

/-- **The forward simulation rule**: a relation to the states of another machine, such that each step leads on to a
state related to one that some steps of the other machine lead to. -/
theorem simulates_rel {τ ν : Type*} {N : Machine τ ν} {R : σ → τ → Prop} {ops : ω → List ν}
    (hstep : ∀ s o t u, R s u → M.step s o = some t → ∃ w, N.run u (ops o) = some w ∧ R t w)
    {s t : σ} {u : τ} {os : List ω} (hs : R s u) (h : M.run s os = some t) :
    ∃ w, N.run u (os.flatMap ops) = some w ∧ R t w := by
  induction os generalizing s u with
  | nil =>
    rw [run_nil, Option.some.injEq] at h
    exact ⟨u, N.run_nil u, h ▸ hs⟩
  | cons o os ih =>
    obtain ⟨v, hv, ht⟩ := M.run_cons.mp h
    obtain ⟨w, hw, hR⟩ := hstep s o v u hs hv
    obtain ⟨x, hx, hR'⟩ := ih hR ht
    exact ⟨x, by rw [List.flatMap_cons]; exact N.run_append.mpr ⟨w, hw, hx⟩, hR'⟩

/-- **The rule for the same runs**: where the steps of related states with the same label are both enabled and lead
to related states, or both not enabled, so it is with runs. -/
theorem run_rel {τ : Type*} {N : Machine τ ω} {R : σ → τ → Prop} {P : ω → Prop}
    (hstep : ∀ s u o, R s u → P o → Option.Rel R (M.step s o) (N.step u o)) {s : σ} {u : τ} {os : List ω} (hs : R s u)
    (hP : ∀ o ∈ os, P o) : Option.Rel R (M.run s os) (N.run u os) := by
  induction os generalizing s u with
  | nil => exact .some hs
  | cons o os ih =>
    obtain ⟨ho, hos⟩ := List.forall_mem_cons.mp hP
    have hnext := hstep s u o hs ho
    rw [run, run]
    cases hM : M.step s o <;> cases hN : N.step u o <;> rw [hM, hN] at hnext <;> cases hnext
    · exact .none
    · next hR => exact ih hR hos

/-- **The refinement rule**: where each step is a step of another machine, whose label its own tells, a run is a run
of that machine. -/
theorem refines {τ ν : Type*} {N : Machine τ ν} {I : σ → Prop} {f : σ → τ} {g : ω → ν}
    (hinv : ∀ s o t, I s → M.step s o = some t → I t)
    (hstep : ∀ s o t, I s → M.step s o = some t → N.step (f s) (g o) = some (f t))
    {s t : σ} {os : List ω} (hs : I s) (h : M.run s os = some t) : N.run (f s) (os.map g) = some (f t) := by
  induction os generalizing s with
  | nil =>
    rw [run_nil, Option.some.injEq] at h
    rw [h, List.map_nil, run_nil]
  | cons o os ih =>
    obtain ⟨w, hw, ht⟩ := M.run_cons.mp h
    exact N.run_cons.mpr ⟨f w, hstep s o w hs hw, ih (hinv s o w hs hw) ht⟩

/-! ### Two runs -/

/-- **The rule for two runs** of one machine with the same visible labels: a relation that hidden
steps keep on either side, and that visible steps with the same label keep together, makes the
two traces the same. -/
theorem two_runs {ε ν : Type*} {R : σ → σ → Prop} {vis : ω → Option ν} {f : σ → ω → List ε}
    (hhidden : ∀ s o, vis o = none → f s o = [])
    (hleft : ∀ s s' t o, R s t → vis o = none → M.step s o = some s' → R s' t)
    (hright : ∀ s t t' o, R s t → vis o = none → M.step t o = some t' → R s t')
    (hboth : ∀ s s' t t' o o' l, R s t → vis o = some l → vis o' = some l → M.step s o = some s' →
      M.step t o' = some t' →
      R s' t' ∧ f s o = f t o')
    {s s' t t' : σ} {os os' : List ω} (h : R s t) (hs : M.run s os = some s') (ht : M.run t os' = some t')
    (hvis : os.filterMap vis = os'.filterMap vis) : R s' t' ∧ M.trace f s os = M.trace f t os' := by
  -- by induction on the first run, and inside on the hidden steps of the second
  induction os generalizing s t os' with
  | nil =>
    obtain rfl : s = s' := Option.some.inj hs
    induction os' generalizing t with
    | nil =>
      obtain rfl : t = t' := Option.some.inj ht
      exact ⟨h, rfl⟩
    | cons o' os' ih =>
      obtain ⟨u, hu, ht⟩ := M.run_cons.mp ht
      cases ho' : vis o' with
      | none =>
        rw [List.filterMap_cons_none ho'] at hvis
        obtain ⟨hR, htrace⟩ := ih (hright s t u o' h ho' hu) ht hvis
        rw [M.trace_cons f hu, hhidden t o' ho', List.nil_append]
        exact ⟨hR, htrace⟩
      | some l => simp [List.filterMap_cons_some ho'] at hvis
  | cons o os ih =>
    obtain ⟨w, hw, hs⟩ := M.run_cons.mp hs
    cases ho : vis o with
    | none =>
      rw [List.filterMap_cons_none ho] at hvis
      obtain ⟨hR, htrace⟩ := ih (hleft s w t o h ho hw) hs ht hvis
      rw [M.trace_cons f hw, hhidden s o ho, List.nil_append]
      exact ⟨hR, htrace⟩
    | some l =>
      rw [List.filterMap_cons_some ho] at hvis
      induction os' generalizing t with
      | nil => simp at hvis
      | cons o' os' ih' =>
        obtain ⟨u, hu, ht⟩ := M.run_cons.mp ht
        cases ho' : vis o' with
        | none =>
          rw [List.filterMap_cons_none ho'] at hvis
          obtain ⟨hR, htrace⟩ := ih' (hright s t u o' h ho' hu) ht hvis
          rw [M.trace_cons f hu, hhidden t o' ho', List.nil_append]
          exact ⟨hR, htrace⟩
        | some l' =>
          rw [List.filterMap_cons_some ho', List.cons.injEq] at hvis
          obtain ⟨rfl, hvis⟩ := hvis
          obtain ⟨hRu, hobs⟩ := hboth s w t u o o' l h ho ho' hw hu
          obtain ⟨hR, htrace⟩ := ih hRu hs ht hvis
          rw [M.trace_cons f hw, M.trace_cons f hu, hobs, htrace]
          exact ⟨hR, rfl⟩

/-! ### Stretches of runs -/

/-- A state is reached through states, both ends included, that satisfy `P`. -/
inductive Within (P : σ → Prop) (s : σ) : σ → Prop where
  | start (hs : P s) : Within P s s
  | step {t u : σ} {o : ω} (h : Within P s t) (hstep : M.step t o = some u) (hu : P u) : Within P s u

variable {M} {P I : σ → Prop}

/-- A stretch may begin one step earlier. -/
theorem Within.head {s t u : σ} {o : ω} (hs : P s) (hstep : M.step s o = some t) (h : M.Within P t u) :
    M.Within P s u := by
  induction h with
  | start ht => exact .step (.start hs) hstep ht
  | step _ hstep' hu ih => exact .step ih hstep' hu

/-- The invariant rule for stretches. -/
theorem Within.invariant (hstep : ∀ s o t, I s → M.step s o = some t → P t → I t) {s t : σ} (hs : I s)
    (h : M.Within P s t) : I t := by
  induction h with
  | start _ => exact hs
  | step _ hstep' hu ih => exact hstep _ _ _ ih hstep' hu

end Machine

end MoltarOS.Lib
