import MoltarOS.Drivers.VgaPrint

/-!
# Safety of the text screen

`array_get` only refuses an index above `used`, so it is the driver's own invariant that keeps
it from a slot that was never filled: there is a line for each row of the screen.

## What is proved

* `vga_safe` — from `vga_init` and `vga_dynamic_init` on, any mix of printing, scrolling and
  moving the cursor within the screen runs without a `Fault`, and ends with the cursor on the
  screen and the screen within the saved lines.
* `behaves_iff` — the setters test the coordinate that is there and not their argument, so that the cursor stays
  on the screen exactly if every argument is on the screen.
-/

namespace MoltarOS.Drivers

open MoltarOS.Lib MoltarOS.Ds

namespace Vga

variable {s t : Vga} {k : Kmalloc}

/-! ### Printing and moving the cursor -/

/-- `vga_putc` does not fail, nor call itself. -/
theorem vgaPutc_spec (h : s.Inv) (depth : ℕ) (c : UInt8) : ∃ t, vgaPutc k (depth + 1) c s = .ok t ∧ t.Inv := by
  obtain ⟨t, ht, hp⟩ := vgaPutc_printed (k := k) h depth c
  exact ⟨t, ht, hp.inv⟩

theorem vgaPrint_spec (h : s.Inv) (str : List UInt8) : ∃ t, vgaPrint k str s = .ok t ∧ t.Inv := by
  rw [vgaPrint_eq]
  exact foldlM_spec (fun c _ s hs => vgaPutc_spec hs 0 c) h

theorem updateCursor_spec (h : s.Inv) : ∃ t, s.updateCursor = .ok t ∧ t.Inv :=
  ⟨_, updateCursor_eq h, h.x, h.y, h.window.rows, h.window.distinct⟩

/-- Where the cursor is on the screen, any argument is taken. -/
theorem vgaSetX_eq (h : s.Inv) (x : ℕ) : s.vgaSetX x = updateCursor { s with x := x } :=
  congrArg updateCursor (if_pos h.x)

theorem vgaSetY_eq (h : s.Inv) (y : ℕ) : s.vgaSetY y = updateCursor { s with y := y } :=
  congrArg updateCursor (if_pos h.y)

/-- The hardware's cursor is all that is written. -/
theorem updateCursor_ok (h : s.updateCursor = .ok t) : t.x = s.x ∧ t.y = s.y := by
  obtain ⟨pos, -, ht⟩ := bind_eq_ok h
  obtain rfl := Except.ok.inj ht
  exact ⟨rfl, rfl⟩

theorem vgaSetX_spec (h : s.Inv) {x : ℕ} (hx : x < vgaWidth) : ∃ t, s.vgaSetX x = .ok t ∧ t.Inv := by
  rw [vgaSetX_eq h]
  exact updateCursor_spec ⟨hx, h.y, h.window.rows, h.window.distinct⟩

theorem vgaSetY_spec (h : s.Inv) {y : ℕ} (hy : y < vgaHeight) : ∃ t, s.vgaSetY y = .ok t ∧ t.Inv := by
  rw [vgaSetY_eq h]
  exact updateCursor_spec ⟨h.x, hy, h.window.rows, h.window.distinct⟩

/-- The cursor is moved, the hardware's too. -/
def cursorAt (s : Vga) (x y : ℕ) : Vga := { s with x := x, y := y, cursor := UInt16.ofNat (y * vgaWidth + x) }

theorem cursorAt_inv (h : s.Inv) {x y : ℕ} (hx : x < vgaWidth) (hy : y < vgaHeight) : (s.cursorAt x y).Inv :=
  ⟨hx, hy, h.window.rows, h.window.distinct⟩

/-- Both setters. -/
theorem vgaSetXY_eq (h : s.Inv) {x y : ℕ} (hx : x < vgaWidth) (hy : y < vgaHeight) :
    (s.vgaSetX x >>= fun s => s.vgaSetY y) = .ok (s.cursorAt x y) := by
  have hinv : Inv { s with x := x } := ⟨hx, h.y, h.window.rows, h.window.distinct⟩
  have hinv' : Inv { s.cursorAt x s.y with y := y } := ⟨hx, hy, h.window.rows, h.window.distinct⟩
  have hcol : s.vgaSetX x = .ok (s.cursorAt x s.y) := (vgaSetX_eq h x).trans (updateCursor_eq hinv)
  rw [hcol, ok_bind]
  exact (vgaSetY_eq (cursorAt_inv h hx h.y) y).trans (updateCursor_eq hinv')

/-- Both setters, and what follows them. -/
theorem vgaSetXY_bind {α : Type} (f : Vga → Except Fault α) (h : s.Inv) {x y : ℕ} (hx : x < vgaWidth)
    (hy : y < vgaHeight) :
    (s.vgaSetX x >>= fun s => s.vgaSetY y >>= f) = f (s.cursorAt x y) := by
  rw [← bind_assoc, vgaSetXY_eq h hx hy, ok_bind]

/-! ### Runs -/

/-- What the rest of the kernel calls. -/
inductive Act where
  /-- `vga_putc`. -/
  | putc (c : UInt8)
  /-- `vga_print`. -/
  | print (str : List UInt8)
  /-- `vga_scroll_up` or `vga_scroll_down`. -/
  | scroll (m : Move)
  /-- `vga_set_x`. -/
  | setX (x : ℕ)
  /-- `vga_set_y`. -/
  | setY (y : ℕ)

/-- The arguments are on the screen. -/
def Act.InRange : Act → Prop
  | .setX x => x < vgaWidth
  | .setY y => y < vgaHeight
  | _ => True

/-- One call. -/
def step (k : Kmalloc) (s : Vga) : Act → Except Fault Vga
  | .putc c => vgaPutc k 1 c s
  | .print str => vgaPrint k str s
  | .scroll m => s.scroll k m
  | .setX x => s.vgaSetX x
  | .setY y => s.vgaSetY y

/-- `vga_init`, `vga_dynamic_init`, and then any calls. -/
def run (k : Kmalloc) (s : Vga) (acts : List Act) : Except Fault Vga := do
  let s ← s.vgaInit
  let s ← s.vgaDynamicInit k
  acts.foldlM (step k) s

theorem step_spec (h : s.Inv) {a : Act} (ha : a.InRange) : ∃ t, s.step k a = .ok t ∧ t.Inv := by
  cases a with
  | putc c => exact vgaPutc_spec h 0 c
  | print str => exact vgaPrint_spec h str
  | scroll m =>
    cases m with
    | up =>
      obtain ⟨t, ht, hs⟩ := vgaScrollUp_spec h.window
      exact ⟨t, ht, hs.x ▸ h.x, hs.y ▸ h.y, hs.window⟩
    | down =>
      obtain ⟨t, ht, hs⟩ := vgaScrollDown_spec (k := k) h.window
      exact ⟨t, ht, hs.x ▸ h.x, hs.y ▸ h.y, hs.window⟩
  | setX x => exact vgaSetX_spec h ha
  | setY y => exact vgaSetY_spec h ha

/-- Whatever was printed before, the lines are there after `vga_dynamic_init`. -/
theorem vgaDynamicInit_inv (hx : s.x < vgaWidth) (hy : s.y < vgaHeight) (hline : s.lineNumber = 0) :
    ∃ t, s.vgaDynamicInit k = .ok t ∧ t.Inv := by
  obtain ⟨lines, hinit, hused, hd⟩ := vgaDynamicInit_spec (s := s) k
  refine ⟨_, hinit, hx, hy, ?_, hd⟩
  change s.lineNumber + vgaHeight ≤ lines.used
  omega

end Vga

open Vga in
/-- **No fault**: every call succeeds, so that no write is outside the buffer and no
`array_get` asks for a line that is not there, and keeps the cursor on the screen and the screen within the
lines. -/
theorem vga_safe (k : Kmalloc) {s₀ : Vga} (h : s₀.lineNumber = 0) {acts : List Act} (hacts : ∀ a ∈ acts, a.InRange) :
    ∃ s, s₀.run k acts = .ok s ∧ s.x < 80 ∧ s.y < 25 ∧ s.lineNumber + 25 ≤ s.lines.used := by
  obtain ⟨u, hinit, hu⟩ := vgaInit_spec (s := s₀)
  have hx : u.x < vgaWidth := by
    rw [hu]
    exact Nat.zero_lt_succ 79
  have hy : u.y < vgaHeight := by
    rw [hu]
    exact Nat.zero_lt_succ 24
  have hline : u.lineNumber = 0 := by
    rw [hu]
    exact h
  obtain ⟨w, hdyn, hinv⟩ := vgaDynamicInit_inv (k := k) hx hy hline
  obtain ⟨s, hs, hend⟩ := foldlM_spec (I := Vga.Inv) (fun a ha s hs => step_spec (k := k) hs (hacts a ha)) hinv
  refine ⟨s, ?_, hend.x, hend.y, hend.window.rows⟩
  rw [run, hinit, ok_bind, hdyn, ok_bind]
  exact hs

open Vga in
/-- Print, scroll up, go to the last row and print there. -/
theorem vga_safe_sample :
    ∃ s, sampleVga.run sampleKmalloc [.print [72, 105, 10], .scroll .up, .setY 24, .putc 10] = .ok s ∧
      s.x < 80 ∧ s.y < 25 ∧ s.lineNumber + 25 ≤ s.lines.used :=
  vga_safe sampleKmalloc rfl (by
    rintro a ha
    simp only [List.mem_cons, List.not_mem_nil, or_false] at ha
    rcases ha with rfl | rfl | rfl | rfl
    · exact trivial
    · exact trivial
    · exact Nat.lt_succ_self 24
    · exact trivial)

/-! ### Arguments off the screen -/

namespace Vga

variable {s t : Vga} {k : Kmalloc}

/-- What a call should leave of the cursor: it is on the screen, where a setter puts it if its argument is, and
where it was otherwise. -/
structure Proper (s t : Vga) (a : Act) : Prop where
  /-- The column. -/
  x : t.x < vgaWidth
  /-- The row. -/
  y : t.y < vgaHeight
  /-- `vga_set_x`. -/
  setX : ∀ x, a = .setX x → t.x = (if x < vgaWidth then x else s.x) ∧ t.y = s.y
  /-- `vga_set_y`. -/
  setY : ∀ y, a = .setY y → t.x = s.x ∧ t.y = if y < vgaHeight then y else s.y

/-- Every call succeeds, and does what it should. -/
def Behaves (k : Kmalloc) : Vga → List Act → Prop
  | _, [] => True
  | s, a :: acts => ∃ t, step k s a = .ok t ∧ Proper s t a ∧ Behaves k t acts

/-- With its argument on the screen, a call does what it should. -/
theorem step_proper (h : s.Inv) {a : Act} (ha : a.InRange) : ∃ t, s.step k a = .ok t ∧ t.Inv ∧ Proper s t a := by
  obtain ⟨t, ht, hinv⟩ := step_spec (k := k) h ha
  refine ⟨t, ht, hinv, hinv.x, hinv.y, ?_, ?_⟩
  · rintro x rfl
    change s.vgaSetX x = .ok t at ht
    rw [vgaSetX_eq h] at ht
    obtain ⟨hx, hy⟩ := updateCursor_ok ht
    exact ⟨hx.trans (if_pos ha).symm, hy⟩
  · rintro y rfl
    change s.vgaSetY y = .ok t at ht
    rw [vgaSetY_eq h] at ht
    obtain ⟨hx, hy⟩ := updateCursor_ok ht
    exact ⟨hx, hy.trans (if_pos ha).symm⟩

/-- Otherwise it takes the cursor off the screen, if it does not panic. -/
theorem inRange_of_proper (h : s.Inv) {a : Act} (ht : s.step k a = .ok t) (hp : Proper s t a) : a.InRange := by
  cases a with
  | setX x =>
    change s.vgaSetX x = .ok t at ht
    rw [vgaSetX_eq h] at ht
    obtain ⟨hx, -⟩ := updateCursor_ok ht
    have hon := hp.x
    rw [hx] at hon
    exact hon
  | setY y =>
    change s.vgaSetY y = .ok t at ht
    rw [vgaSetY_eq h] at ht
    obtain ⟨-, hy⟩ := updateCursor_ok ht
    have hon := hp.y
    rw [hy] at hon
    exact hon
  | _ => exact trivial

/-- **The cursor is moved as it should exactly if every argument is on the screen**. -/
theorem behaves_iff (h : s.Inv) (acts : List Act) : Behaves k s acts ↔ ∀ a ∈ acts, a.InRange := by
  induction acts generalizing s with
  | nil => simp [Behaves]
  | cons a acts ih =>
    rw [List.forall_mem_cons]
    constructor
    · rintro ⟨t, ht, hp, hrest⟩
      have ha := inRange_of_proper h ht hp
      obtain ⟨t', ht', hinv, -⟩ := step_proper (k := k) h ha
      obtain rfl := Except.ok.inj (ht.symm.trans ht')
      exact ⟨ha, (ih hinv).mp hrest⟩
    · rintro ⟨ha, hrest⟩
      obtain ⟨t, ht, hinv, hp⟩ := step_proper (k := k) h ha
      exact ⟨t, ht, hp, (ih hinv).mpr hrest⟩

end Vga

open Vga in
/-- The last column and the last row, and a newline there. -/
theorem behaves_sample : ∃ s, sampleVga.vgaDynamicInit sampleKmalloc = .ok s ∧
    (Behaves sampleKmalloc s [.setX 79, .setY 24, .putc 10] ↔ ∀ a ∈ [Act.setX 79, .setY 24, .putc 10], a.InRange) := by
  obtain ⟨s, hs, hinv⟩ := @vgaDynamicInit_inv sampleVga sampleKmalloc (by decide) (by decide) rfl
  exact ⟨s, hs, behaves_iff hinv _⟩

open Vga in
/-- The column after the last is taken, and then the cursor does not come back. -/
theorem not_behaves : ∃ s, sampleVga.vgaDynamicInit sampleKmalloc = .ok s ∧ s.x < vgaWidth ∧ s.y < vgaHeight ∧
    ¬ Behaves sampleKmalloc s [.setX 80, .setX 0] := by
  obtain ⟨s, hs, hinv⟩ := @vgaDynamicInit_inv sampleVga sampleKmalloc (by decide) (by decide) rfl
  refine ⟨s, hs, hinv.x, hinv.y, ?_⟩
  rintro ⟨t, ht, hp, -⟩
  exact absurd (inRange_of_proper hinv ht hp) (Nat.lt_irrefl 80)

end MoltarOS.Drivers
