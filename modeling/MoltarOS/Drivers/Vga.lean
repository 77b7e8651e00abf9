import MoltarOS.Ds.Array
import MoltarOS.Lib.Loop

/-!
# The text screen

`drivers/vga.c`: the 25 rows of 80 cells of the text-mode buffer, the cursor, and the array
of saved lines, of which the screen shows 25 from `line_number` on. The end of the first
row and the end of the second are reserved for the clock and the last key.

## The model

What goes wrong is a `Fault`: a write outside the buffer, an `array_get` at an index where
no line is, the panic of `get_index`. The cells of the lines are memory, `mem`; what it holds
where a new line is allocated is up to `kmalloc`. Counts of lines are natural numbers, as
memory has no room for so many that 32 bits overflow. The arguments of the
log call in `array_get` and of the panic are left out.
-/

namespace MoltarOS.Drivers

open MoltarOS.Lib MoltarOS.Ds

/-! ### State -/

/-- `vga_height`. -/
def vgaHeight : ℕ := 25

/-- `vga_width`. -/
def vgaWidth : ℕ := 80

/-- `COLOR_BLACK`. -/
def COLOR_BLACK : UInt8 := 0

/-- `COLOR_LIGHT_GREY`. -/
def COLOR_LIGHT_GREY : UInt8 := 7

/-- The address of a line. -/
abbrev LineRef := ℕ

/-- `NULL`. -/
def NULL : LineRef := 0

/-- What `kmalloc` returns. -/
structure Kmalloc where
  /-- The memory for a line, given the lines there are. -/
  line : List LineRef → LineRef
  /-- What the memory for so many slots holds. -/
  slots : ℕ → ℕ → LineRef
  /-- The memory for a line is fresh. -/
  fresh : ∀ l, line l ∉ l

/-- The state of the driver. -/
structure Vga where
  /-- The current column. -/
  x : ℕ
  /-- The current row. -/
  y : ℕ
  /-- The current VGA color mask. -/
  color : UInt8
  /-- The text-mode buffer. -/
  buf : ℕ → UInt16
  /-- The position of the hardware's cursor. -/
  cursor : UInt16
  /-- The saved lines. -/
  lines : ArrayT LineRef
  /-- The line that the first row shows. -/
  lineNumber : ℕ
  /-- The cells of the lines. -/
  mem : LineRef → ℕ → UInt16

/-- What can go wrong. -/
inductive Fault where
  /-- A write outside the buffer. -/
  | buffer (index : ℕ)
  /-- An `array_get` of a line that is not there. -/
  | line (index used : ℕ)
  /-- The panic of `get_index`. -/
  | badCoordinates (x y : ℕ)
  /-- `vga_putc` calls itself deeper than that. -/
  | depth

/-! ### The code -/

/-- `make_color(foreground, background)`. -/
def makeColor (foreground background : UInt8) : UInt8 := foreground ||| background <<< 4

/-- `reserved(i, j)`. -/
def reserved (i j : ℕ) : Bool := decide (i = 0 ∧ j = vgaWidth - 10 ∨ i = 1 ∧ j = vgaWidth - 15)

namespace Vga

variable (k : Kmalloc) (s : Vga)

/-- `color_char(c)`: a `char` is signed. -/
def colorChar (c : UInt8) : UInt16 :=
  let c16 := c.toInt8.toInt16.toUInt16
  let color16 := s.color.toUInt16
  c16 ||| color16 <<< 8

/-- `buf[index] = cell`. -/
def write (index : ℕ) (cell : UInt16) : Except Fault Vga :=
  if index < vgaHeight * vgaWidth then .ok { s with buf := Function.update s.buf index cell }
    else .error (.buffer index)

/-- `line[j] = cell`. -/
def store (line : LineRef) (j : ℕ) (cell : UInt16) : Vga :=
  { s with mem := Function.update s.mem line (Function.update (s.mem line) j cell) }

/-- `array_get(lines, idx)`, for a line that is there. -/
def line (idx : ℕ) : Except Fault LineRef :=
  if idx < s.lines.used then .ok ((arrayGet s.lines idx).getD NULL) else .error (.line idx s.lines.used)

/-- `get_index`. -/
def getIndex : Except Fault ℕ :=
  if s.y > vgaHeight ∨ s.x > vgaWidth then .error (.badCoordinates s.x s.y) else .ok (s.y * vgaWidth + s.x)

/-- `update_cursor`. -/
def updateCursor : Except Fault Vga := do
  let pos ← s.getIndex
  .ok { s with cursor := UInt16.ofNat pos }

/-- `vga_init`: clear a row of the VGA buffer. -/
def clearRow (i : ℕ) : Except Fault Vga :=
  forLoop vgaWidth never (fun j s => s.write (i * vgaWidth + j) (s.colorChar 32)) s

/-- `vga_init`. -/
def vgaInit : Except Fault Vga :=
  let s := { s with x := 0, y := 0, color := makeColor COLOR_LIGHT_GREY COLOR_BLACK }
  forLoop vgaHeight never (fun i s => s.clearRow i) s

/-- `array_add(lines, line)` for a line that `kmalloc` returns. -/
def addLine : Vga := { s with lines := arrayAdd k.slots s.lines (k.line s.lines.toList) }

/-- `vga_dynamic_init`. -/
def vgaDynamicInit : Except Fault Vga :=
  let s := { s with lines := arrayCreate k.slots vgaHeight }
  forLoop vgaHeight never (fun _ s => .ok (s.addLine k)) s

/-- `save_buffer`: copy a row into its line, without its reserved part. -/
def saveRow (i : ℕ) : Except Fault Vga := do
  let line ← s.line (s.lineNumber + i)
  forLoop vgaWidth (reserved i) (fun j s => .ok (s.store line j (s.buf (i * vgaWidth + j)))) s

/-- `save_buffer`. -/
def saveBuffer : Except Fault Vga := forLoop vgaHeight never (fun i s => s.saveRow i) s

/-- `draw_buffer`: copy a line into its row, without the reserved part. -/
def drawRow (i : ℕ) : Except Fault Vga := do
  let line ← s.line (s.lineNumber + i)
  forLoop vgaWidth (reserved i) (fun j s => s.write (i * vgaWidth + j) (s.mem line j)) s

/-- `draw_buffer`. -/
def drawBuffer : Except Fault Vga := forLoop vgaHeight never (fun i s => s.drawRow i) s

/-- `vga_scroll_down`: a new line, filled with blanks. -/
def newLine : Except Fault Vga := do
  let line := k.line s.lines.toList
  let s ← forLoop vgaWidth never (fun i s => .ok (s.store line i (s.colorChar 32))) s
  .ok { s with lines := arrayAdd k.slots s.lines line }

/-- `vga_scroll_down`: if there is no next line, allocate it. -/
def room : Except Fault Vga := if s.lines.used ≤ s.lineNumber + vgaHeight then s.newLine k else .ok s

/-- `vga_scroll_down`. -/
def vgaScrollDown : Except Fault Vga := do
  let s ← s.saveBuffer
  let s ← s.room k
  drawBuffer { s with lineNumber := s.lineNumber + 1 }

/-- `vga_scroll_up`. -/
def vgaScrollUp : Except Fault Vga :=
  if s.lineNumber = 0 then .ok s else do
    let s ← s.saveBuffer
    drawBuffer { s with lineNumber := s.lineNumber - 1 }

/-- `vga_putc`: fill the rest of the line with empty space, in so many turns at most. -/
def fillLine : ℕ → Vga → Except Fault Vga
  | 0, s => .ok s
  | turns + 1, s =>
    if s.x < vgaWidth ∧ reserved s.x s.y = false then do
      let idx ← s.getIndex
      let s ← s.write idx (s.colorChar 32)
      fillLine turns { s with x := s.x + 1 }
    else .ok s

/-- `vga_putc`: restart at the beginning of the next line, if `x` is at the end of this one. -/
def wrap : Except Fault Vga :=
  if s.x ≥ vgaWidth ∨ reserved s.x s.y then
    if s.y + 1 ≥ vgaHeight then vgaScrollDown k { s with x := 0 } else .ok { s with x := 0, y := s.y + 1 }
  else .ok s

/-- `vga_putc`: go on to the next position. -/
def advance : Except Fault Vga := do
  let s ← wrap k { s with x := s.x + 1 }
  s.updateCursor

/-- `vga_putc(c)`, calling itself to the given depth at most. -/
def vgaPutc : ℕ → UInt8 → Vga → Except Fault Vga
  | 0, _, _ => .error .depth
  | depth + 1, c, s =>
    if c = 10 then do
      let s ← fillLine vgaWidth s
      s.advance k
    -- on reserved spots, handle as a newline character, and then print
    else if reserved s.x s.y then do
      let s ← vgaPutc depth 10 s
      vgaPutc depth c s
    else do
      let idx ← s.getIndex
      let s ← s.write idx (s.colorChar (if c = 9 then 32 else c))
      s.advance k

/-- `vga_print(str)`, up to the 0 that ends it. -/
def vgaPrint : List UInt8 → Vga → Except Fault Vga
  | [], s => .ok s
  | c :: str, s => if c = 0 then .ok s else do
    let s ← vgaPutc k 1 c s
    vgaPrint str s

/-- `vga_set_x(_x)`. -/
def vgaSetX (x : ℕ) : Except Fault Vga :=
  let s := if s.x < vgaWidth then { s with x := x } else s
  s.updateCursor

/-- `vga_set_y(_y)`. -/
def vgaSetY (y : ℕ) : Except Fault Vga :=
  let s := if s.y < vgaHeight then { s with y := y } else s
  s.updateCursor

end Vga

end MoltarOS.Drivers
