import MoltarOS.Drivers.VgaPrint

/-!
# A terminal of unbounded height

What the screen and the saved lines are for: together they are a terminal that never scrolls. It has as many lines
as are printed, and a newline fills the rest of its line.

## What is proved

* `Shows.put` — a character does to the driver what it does to the terminal.
* `print_shows_terminal` — so does any string, whatever is scrolled meanwhile. The lines are saved in part only as
  they pass the strips of the first two rows, so of the first two lines this is true left of the strips.
-/

namespace MoltarOS.Drivers

open MoltarOS.Lib

/-! ### The terminal -/

/-- A terminal of 80 columns. -/
structure Terminal where
  /-- The cells of all lines. -/
  text : ℕ → Fin vgaWidth → UInt16
  /-- The line of the cursor. -/
  line : ℕ
  /-- Its column. -/
  x : ℕ

namespace Terminal

variable (cell : UInt8 → UInt16)

/-- Write the cell `v` to the columns up to `stop` of the line, from the cursor on. -/
def fill (T : Terminal) (stop : ℕ) (v : UInt16) : Terminal where
  text n j := if n = T.line ∧ T.x ≤ j ∧ j < stop then v else T.text n j
  line := T.line
  x := stop

theorem fill_text (T : Terminal) (stop : ℕ) (v : UInt16) (n : ℕ) (j : Fin vgaWidth) :
    (T.fill stop v).text n j = if n = T.line ∧ T.x ≤ j ∧ j < stop then v else T.text n j := rfl

/-- Go to the next line at the end of this one. -/
def wrap (T : Terminal) : Terminal := if T.x < vgaWidth then T else { T with line := T.line + 1, x := 0 }

/-- A character, `cell c` being its cell: a newline fills the line, a tab is a blank. -/
def put (T : Terminal) (c : UInt8) : Terminal :=
  if c = 10 then (T.fill vgaWidth (cell 32)).wrap else (T.fill (T.x + 1) (cell (if c = 9 then 32 else c))).wrap

/-- The characters of a string. -/
def print (T : Terminal) (str : List UInt8) : Terminal := str.foldl (put cell) T

@[simp] theorem wrap_text (T : Terminal) : T.wrap.text = T.text := by
  rw [wrap]
  split_ifs <;> rfl

theorem wrap_line (T : Terminal) : T.wrap.line = if T.x < vgaWidth then T.line else T.line + 1 := by
  rw [wrap]
  split_ifs <;> rfl

theorem wrap_x (T : Terminal) : T.wrap.x = if T.x < vgaWidth then T.x else 0 := by
  rw [wrap]
  split_ifs <;> rfl

/-- The terminal with the cells of a screen, `cell` of a blank below. -/
def ofScreen (s : Vga) : Terminal where
  text n j := if n < vgaHeight then s.buf (n * vgaWidth + j) else s.colorChar 32
  line := s.y
  x := s.x

end Terminal

namespace Vga

variable {s t : Vga} {k : Kmalloc} {T : Terminal} {cell : UInt8 → UInt16}

/-! ### The simulation -/

/-- The screen and the saved lines are those of the terminal, but for the strips' columns of the first two lines. -/
structure Shows (cell : UInt8 → UInt16) (s : Vga) (T : Terminal) : Prop where
  /-- The cursor is on the screen. -/
  inv : s.Inv
  /-- Nothing was scrolled unless the cursor is in the last row. -/
  pinned : s.lineNumber = 0 ∨ s.y + 1 = vgaHeight
  /-- Characters have the same cells. -/
  cell : ∀ c, s.colorChar c = cell c
  /-- The lines are the same. -/
  text : ∀ n (j : Fin vgaWidth), 2 ≤ n ∨ j.val < 65 → s.document n j = T.text n j
  /-- The cursor is on the same line, -/
  line : s.cursorLine = T.line
  /-- in the same column. -/
  x : s.x = T.x

/-- What both do with a character: cells and then the next position. -/
theorem Shows.put_eq (h : s.Shows cell T) (c : UInt8) : T.put cell c = (T.fill (s.putEnd c) (s.putCell c)).wrap := by
  rw [Terminal.put, putEnd, putCell, h.cell, h.x]
  by_cases hc : c = 10
  · rw [if_pos hc, if_pos hc, if_pos (Or.inl hc)]
  · rw [if_neg hc, if_neg hc]
    simp only [hc, false_or]

/-- The cells that are compared on the cursor's line are left of the strip. -/
theorem Shows.lt_rowEnd (h : s.Shows cell T) {j : Fin vgaWidth} (hj : 2 ≤ s.cursorLine ∨ j.val < 65) :
    j < rowEnd s.y := by
  have hlt := j.isLt
  have hpinned := h.pinned
  rw [cursorLine] at hj
  simp only [vgaWidth, vgaHeight] at hlt hpinned
  rw [rowEnd]
  split_ifs <;> omega

/-- **A character** does to the driver what it does to the terminal. -/
theorem Shows.put (h : s.Shows cell T) (c : UInt8) :
    ∃ t, vgaPutc k 1 c s = .ok t ∧ t.Shows cell (T.put cell c) := by
  obtain ⟨t, ht, hp⟩ := vgaPutc_printed (k := k) h.inv 0 c
  rw [h.put_eq c]
  refine ⟨t, ht, hp.inv, ?_, fun c' => ?_, fun n j hj => ?_, ?_, ?_⟩
  · have hpinned := h.pinned
    by_cases hend : s.putEnd c < vgaWidth
    · obtain ⟨-, hy, hn⟩ := hp.of_lt hend
      omega
    · obtain ⟨-, ⟨hlast, hy, hn⟩ | ⟨hlast, hy, hn⟩⟩ := hp.of_end h.inv hend <;> omega
  · rw [colorChar_congr hp.color, h.cell]
  · rw [hp.document, putBuf, document_span h.inv.y, Terminal.wrap_text, Terminal.fill_text, ← h.line, ← h.x,
      ← h.text n j hj]
    refine if_congr (and_congr_right fun hn => ?_) rfl rfl
    subst hn
    exact and_iff_right (h.lt_rowEnd hj)
  · rw [hp.cursorLine_eq h.inv, Terminal.wrap_line, h.line]
    rfl
  · rw [hp.x, Terminal.wrap_x]
    rfl

/-- So does a text. -/
theorem Shows.print (h : s.Shows cell T) (text : List UInt8) :
    ∃ t, text.foldlM (fun s c => vgaPutc k 1 c s) s = .ok t ∧ t.Shows cell (T.print cell text) := by
  induction text generalizing s T with
  | nil => exact ⟨s, rfl, h⟩
  | cons c text ih =>
    obtain ⟨u, hu, hshows⟩ := h.put (k := k) c
    obtain ⟨t, ht, hshows'⟩ := ih hshows
    refine ⟨t, ?_, hshows'⟩
    rw [List.foldlM_cons, hu]
    exact ht

/-- With the first lines on the screen, and none below, the driver shows its screen. -/
theorem shows_ofScreen (h : s.Inv) (hline : s.lineNumber = 0) (hused : s.lines.used = vgaHeight) :
    s.Shows s.colorChar (Terminal.ofScreen s) := by
  refine ⟨h, Or.inl hline, fun _ => rfl, fun n j hj => ?_, by rw [cursorLine, hline, Nat.zero_add]; rfl, rfl⟩
  by_cases hn : n < vgaHeight
  · have hend : j < rowEnd n := by
      have hlt := j.isLt
      simp only [vgaWidth] at hlt
      rw [rowEnd]
      split_ifs <;> omega
    have hrow := @document_row s n j hn hend
    rw [hline, Nat.zero_add] at hrow
    exact hrow.trans (if_pos hn).symm
  · exact (document_blank h.window.rows (hused.trans_le (Nat.not_lt.mp hn))).trans (if_neg hn).symm

end Vga

open Vga in
/-- **The driver is a terminal of unbounded height.** A string that is printed after `vga_dynamic_init`, on any
screen and from any position on it, leaves in the screen and the saved lines what it leaves on the terminal, and the
cursor where it is there. -/
theorem print_shows_terminal (k : Kmalloc) {s : Vga} (hx : s.x < vgaWidth) (hy : s.y < vgaHeight)
    (hline : s.lineNumber = 0) (str : List UInt8) :
    ∃ u t, s.vgaDynamicInit k = .ok u ∧ vgaPrint k str u = .ok t ∧
      t.Shows s.colorChar ((Terminal.ofScreen s).print s.colorChar (textOf str)) := by
  obtain ⟨lines, hinit, hused, hd⟩ := vgaDynamicInit_spec (s := s) k
  have hrows : s.lineNumber + vgaHeight ≤ lines.used := by omega
  have hstart := @shows_ofScreen { s with lines := lines } ⟨hx, hy, hrows, hd⟩ hline hused
  obtain ⟨t, ht, hshows⟩ := hstart.print (k := k) (textOf str)
  exact ⟨_, t, hinit, by rw [vgaPrint_eq]; exact ht, hshows⟩

open Vga in
theorem print_shows_terminal_sample :
    ∃ u t, sampleVga.vgaDynamicInit sampleKmalloc = .ok u ∧ vgaPrint sampleKmalloc [72, 105, 10, 33, 0] u = .ok t ∧
      t.Shows sampleVga.colorChar
        ((Terminal.ofScreen sampleVga).print sampleVga.colorChar (textOf [72, 105, 10, 33, 0])) :=
  print_shows_terminal sampleKmalloc (by decide) (by decide) rfl [72, 105, 10, 33, 0]

end MoltarOS.Drivers
