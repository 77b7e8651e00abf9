import MoltarOS.Drivers.Kbd
import MoltarOS.Drivers.Rtc
import MoltarOS.Drivers.VgaColor
import MoltarOS.Drivers.VgaSafety

/-!
# The status writers

The keyboard's handler writes the name of a key at the end of the second row, and the thread of the kernel writes the
time at the end of the first. Both go through the console: they move the cursor there, print, and move it back.
`printf` is taken to send what it formats to `vga_putc`, character by character.

## What is proved

* `writeStatus_spec` — a text without newlines that ends with its row is written to its cells, and nothing else changes;
  although the cursor goes on to the next row after the last column.
* `status_confined` — so both writers keep to their strips.
* `clockUpdate_iff` — the clock shows Eastern Standard Time exactly at the hours that `rtc_print` gets right, if
  there is nothing behind it from the time before.
-/

namespace MoltarOS.Drivers

open MoltarOS.Lib

namespace Vga

variable {s t : Vga} {k : Kmalloc}

/-! ### Printing within a row -/

/-- The cells from column `x` of row `y` on get `cells`. -/
def rowCells (buf : ℕ → UInt16) (y x : ℕ) (cells : List UInt16) : ℕ → UInt16 :=
  fun n => if n / 80 = y ∧ x ≤ n % 80 ∧ n % 80 < x + cells.length then cells.getD (n % 80 - x) 0 else buf n

theorem rowCells_nil (buf : ℕ → UInt16) (y x : ℕ) : rowCells buf y x [] = buf := by
  funext n
  rw [rowCells, List.length_nil]
  exact if_neg (by omega)

theorem rowCells_cons (buf : ℕ → UInt16) (y : ℕ) {x : ℕ} (v : UInt16) (cells : List UInt16) :
    rowCells (span buf y x (x + 1) v) y (x + 1) cells = rowCells buf y x (v :: cells) := by
  funext n
  rw [rowCells, rowCells, span, List.length_cons]
  by_cases hrow : n / 80 = y
  · rcases Nat.lt_trichotomy (n % 80) x with hlt | heq | hgt
    · rw [if_neg (by omega), if_neg (by omega), if_neg (by omega)]
    · rw [if_neg (by omega), if_pos (by omega), if_pos (by omega), heq, Nat.sub_self, List.getD_cons_zero]
    · rw [if_neg (by omega : ¬(n / 80 = y ∧ x ≤ n % 80 ∧ n % 80 < x + 1))]
      refine if_congr (by omega) ?_ rfl
      rw [show n % 80 - x = n % 80 - (x + 1) + 1 by omega, List.getD_cons_succ]
  · rw [if_neg fun h => hrow h.1, if_neg fun h => hrow h.1, if_neg fun h => hrow h.1]

/-- `t` is `s` with `cells` written from the cursor on, and another cursor. -/
structure RowWritten (s t : Vga) (cells : List UInt16) : Prop where
  /-- The cursor is on the screen. -/
  inv : t.Inv
  /-- The cells. -/
  buf : t.buf = rowCells s.buf s.y s.x cells
  /-- Nothing else is different. -/
  rest : t = { s with x := t.x, y := t.y, cursor := t.cursor, buf := t.buf }

/-- In a row before the last, `vga_putc` writes its cell and only moves the cursor. -/
theorem vgaPutc_cell (h : s.Inv) (hy : s.y + 1 < vgaHeight) {c : UInt8} (hc : c ≠ 10) :
    ∃ t, vgaPutc k 1 c s = .ok t ∧ t.buf = span s.buf s.y s.x (s.x + 1) (s.colorChar (shown c)) ∧ t.Inv ∧
      t = { s with x := t.x, y := t.y, cursor := t.cursor, buf := t.buf } ∧
      (s.x + 1 < vgaWidth → t.x = s.x + 1 ∧ t.y = s.y) := by
  obtain ⟨x, heq, hiff, hx⟩ := vgaPutc_eq (k := k) h.x h.y 0 c
  have hend : s.putEnd c = s.x + 1 := if_neg hc
  have hbuf : s.putBuf c = span s.buf s.y s.x (s.x + 1) (s.colorChar (shown c)) := by
    rw [putBuf, hend, putCell, shown]
  obtain ⟨u, hu, hux, huy, hrest, hnext⟩ : ∃ u,
      wrap k { s.withBuf (span s.buf s.y s.x (s.x + 1) (s.colorChar (shown c))) with x := x + 1 } = .ok u ∧
      u.x < vgaWidth ∧ u.y < vgaHeight ∧
      u = { s with x := u.x, y := u.y, buf := span s.buf s.y s.x (s.x + 1) (s.colorChar (shown c)) } ∧
      (s.x + 1 < vgaWidth → u.x = s.x + 1 ∧ u.y = s.y) := by
    by_cases hlt : s.x + 1 < vgaWidth
    · have hx' := hx (hend ▸ hlt)
      exact ⟨_, wrap_of_lt (hiff.mpr (hend ▸ hlt)) h.y, hiff.mpr (hend ▸ hlt), h.y, rfl, fun _ => ⟨hx'.trans hend, rfl⟩⟩
    · exact ⟨_, wrap_of_row (fun hlt' => hlt (hend ▸ hiff.mp hlt')) hy, Nat.zero_lt_succ 79, hy, rfl,
        fun h => absurd h hlt⟩
  have huinv : u.Inv := ⟨hux, huy, by rw [hrest]; exact h.window.rows, by rw [hrest]; exact h.window.distinct⟩
  refine ⟨{ u with cursor := UInt16.ofNat (u.y * vgaWidth + u.x) }, ?_, by rw [hrest], ⟨hux, huy, huinv.window.rows,
    huinv.window.distinct⟩, by rw [hrest], hnext⟩
  rw [heq, advance, hbuf]
  change (wrap k { s.withBuf (span s.buf s.y s.x (s.x + 1) (s.colorChar (shown c))) with x := x + 1 } >>= _) = _
  rw [hu, ok_bind]
  exact updateCursor_eq huinv

/-- **A text within a row** is written to its cells. -/
theorem putText_row (h : s.Inv) {text : List UInt8} (hy : text ≠ [] → s.y + 1 < vgaHeight) (hnl : 10 ∉ text)
    (hend : s.x + text.length ≤ vgaWidth) :
    ∃ t, putText k text s = .ok t ∧ s.RowWritten t (text.map fun c => s.colorChar (shown c)) := by
  induction text generalizing s with
  | nil => exact ⟨s, rfl, h, (rowCells_nil _ _ _).symm, rfl⟩
  | cons c text ih =>
    have hc : c ≠ 10 := fun hc => hnl (hc ▸ List.mem_cons_self)
    rw [List.length_cons] at hend
    obtain ⟨u, hu, hbuf, hinv, hrest, hnext⟩ := vgaPutc_cell (k := k) h (hy (List.cons_ne_nil _ _)) hc
    have hcolor : ∀ c, u.colorChar c = s.colorChar c := colorChar_congr (by rw [hrest])
    by_cases hlt : s.x + 1 < vgaWidth
    · obtain ⟨hx, hyu⟩ := hnext hlt
      obtain ⟨t, ht, hw⟩ := ih hinv (fun _ => by rw [hyu]; exact hy (List.cons_ne_nil _ _))
        (fun hmem => hnl (List.mem_cons_of_mem c hmem)) (by rw [hx]; omega)
      refine ⟨t, (putText_cons hu).trans ht, hw.inv, ?_, ?_⟩
      · rw [hw.buf, hbuf, hx, hyu, List.map_cons, rowCells_cons]
        simp only [hcolor]
      · rw [hw.rest, hrest]
    · obtain rfl : text = [] := List.length_eq_zero_iff.mp (by omega)
      refine ⟨u, putText_cons hu, hinv, ?_, hrest⟩
      rw [hbuf, List.map_singleton, ← rowCells_cons, rowCells_nil]

/-! ### The code -/

/-- Remember the cursor, print from another place on, and move it back. -/
def writeStatus (col row : ℕ) (print : Vga → Except Fault Vga) (s : Vga) : Except Fault Vga := do
  let x := s.x
  let y := s.y
  let s ← s.vgaSetX col
  let s ← s.vgaSetY row
  let s ← print s
  let s ← s.vgaSetX x
  s.vgaSetY y

/-- The bound of `for (int i = 0; i < 15 - strlen(str); i++)`, which is unsigned. -/
def padding (str : List UInt8) : ℕ := (15 - UInt32.ofNat str.length).toNat

/-- `keyboard_irq_handler`: write a name. -/
def writeName (k : Kmalloc) (str : List UInt8) : Vga → Except Fault Vga :=
  writeStatus 65 1 fun s => do
    let s ← forLoop (padding str) never (fun _ s => vgaPutc k 1 32 s) s
    putText k str s

/-- `thread_task`: write the time that the registers hold. -/
def clockUpdate (k : Kmalloc) (hourReg minReg secReg : UInt8) : Vga → Except Fault Vga :=
  writeStatus 70 0 (putText k (Rtc.rtcPrint hourReg minReg secReg))

/-! ### What they write -/

/-- `t` is `s` with other cells in row `row` from column `col` on, and with the hardware's cursor where the cursor
is. -/
structure Confined (s t : Vga) (row col : ℕ) : Prop where
  /-- The other cells are the same. -/
  cells : ∀ n, ¬(n / vgaWidth = row ∧ col ≤ n % vgaWidth) → t.buf n = s.buf n
  /-- The hardware's cursor. -/
  cursor : t.cursor = UInt16.ofNat (s.y * vgaWidth + s.x)
  /-- The cursor, the colour, the line number and the saved lines are the same. -/
  rest : t = { s with cursor := t.cursor, buf := t.buf }

/-- **A status text** that ends with its row only changes its cells. -/
theorem writeStatus_spec (h : s.Inv) {col row : ℕ} (hcol : col < vgaWidth) (hrow : row < vgaHeight)
    {print : Vga → Except Fault Vga} {u : Vga} {cells : List UInt16} (hprint : print (s.cursorAt col row) = .ok u)
    (hu : (s.cursorAt col row).RowWritten u cells) :
    ∃ t, s.writeStatus col row print = .ok t ∧ t.buf = rowCells s.buf row col cells ∧ s.Confined t row col := by
  refine ⟨{ s with cursor := UInt16.ofNat (s.y * vgaWidth + s.x), buf := u.buf }, ?_, hu.buf, fun n hn => ?_, rfl, rfl⟩
  · have hlines := hu.rest
    rw [writeStatus]
    refine (vgaSetXY_bind _ h hcol hrow).trans ?_
    rw [hprint, ok_bind]
    refine (vgaSetXY_eq hu.inv h.x h.y).trans ?_
    rw [hlines]
    rfl
  · change u.buf n = s.buf n
    rw [hu.buf]
    exact if_neg fun hin => hn ⟨hin.1, hin.2.1⟩

/-- The padding of a name that is not too long. -/
theorem padding_eq {str : List UInt8} (h : str.length ≤ 15) : padding str = 15 - str.length := by
  have hlen : (UInt32.ofNat str.length).toNat = str.length := Word.toNat_ofNat_of_lt (by omega)
  rw [padding, Word.toNat_sub_of_le (by rw [hlen]; exact h), hlen]
  rfl

/-- Blanks one by one are a text of blanks. -/
theorem forLoop_blanks (n : ℕ) :
    forLoop n never (fun _ s => vgaPutc k 1 32 s) s = putText k (List.replicate n 32) s := by
  have hfrom : ∀ n j (s : Vga), forLoopFrom never (fun _ s => vgaPutc k 1 32 s) j n s =
      putText k (List.replicate n 32) s := by
    intro n
    induction n with
    | zero => exact fun _ _ => rfl
    | succ n ih =>
      intro j s
      rw [forLoopFrom, List.replicate_succ, putText, List.foldlM_cons]
      exact bind_congr fun u => ih (j + 1) u
  exact hfrom n 0 s

theorem putText_append (a b : List UInt8) : putText k (a ++ b) s = putText k a s >>= putText k b := List.foldlM_append

/-- A name and the blanks before it fill the strip of the second row. -/
theorem writeName_spec (k : Kmalloc) (h : s.Inv) {str : List UInt8} (hlen : str.length ≤ 15) (hnl : 10 ∉ str) :
    ∃ t, writeName k str s = .ok t ∧ s.Confined t 1 65 := by
  have hinv : (s.cursorAt 65 1).Inv := cursorAt_inv h (by decide) (by decide)
  have hnl' : 10 ∉ List.replicate (15 - str.length) 32 ++ str := by simpa using hnl
  have hend : 65 + (List.replicate (15 - str.length) (32 : UInt8) ++ str).length ≤ vgaWidth := by
    rw [List.length_append, List.length_replicate]
    simp only [vgaWidth]
    omega
  obtain ⟨u, hu, hw⟩ := putText_row (k := k) hinv (fun _ => (by decide : 1 + 1 < vgaHeight)) hnl' hend
  rw [putText_append, ← forLoop_blanks, ← padding_eq hlen] at hu
  obtain ⟨t, ht, -, hconf⟩ : ∃ t, writeName k str s = .ok t ∧ _ ∧ s.Confined t 1 65 :=
    writeStatus_spec h (by decide) (by decide) hu hw
  exact ⟨t, ht, hconf⟩

/-- The time, and the cells it takes. -/
theorem clockUpdate_spec (k : Kmalloc) (h : s.Inv) {hour min sec : ℕ} (hh : hour < 24) (hm : min < 60) (hs : sec < 60) :
    ∃ t, clockUpdate k (Rtc.bcd hour) (Rtc.bcd min) (Rtc.bcd sec) s = .ok t ∧
      t.buf = rowCells s.buf 0 70 ((Rtc.rtcPrint (Rtc.bcd hour) (Rtc.bcd min) (Rtc.bcd sec)).map s.colorChar) ∧
      s.Confined t 0 70 := by
  have hinv : (s.cursorAt 70 0).Inv := cursorAt_inv h (by decide) (by decide)
  have hchars : ∀ c ∈ Rtc.rtcPrint (Rtc.bcd hour) (Rtc.bcd min) (Rtc.bcd sec), 32 < c := by
    rw [Rtc.rtcPrint_eq hh hm hs]
    exact fun c hc => Rtc.clockText_shown (Rtc.printedHour_le hh) hm hs hc
  have hnl : 10 ∉ Rtc.rtcPrint (Rtc.bcd hour) (Rtc.bcd min) (Rtc.bcd sec) :=
    fun hmem => absurd (hchars 10 hmem) (by decide)
  have hend : 70 + (Rtc.rtcPrint (Rtc.bcd hour) (Rtc.bcd min) (Rtc.bcd sec)).length ≤ vgaWidth :=
    Nat.add_le_add_left (Rtc.rtcPrint_length_le hh hm hs) 70
  obtain ⟨u, hu, hw⟩ := putText_row (k := k) hinv (fun _ => (by decide : 0 + 1 < vgaHeight)) hnl hend
  obtain ⟨t, ht, hbuf, hconf⟩ := writeStatus_spec h (by decide) (by decide) hu hw
  refine ⟨t, ht, hbuf.trans ?_, hconf⟩
  refine congrArg _ (List.map_congr_left fun c hc => ?_)
  have hc' : shown c = c := if_neg fun hor => by
    rcases hor with rfl | rfl
    · exact absurd (hchars 10 hc) (by decide)
    · exact absurd (hchars 9 hc) (by decide)
  rw [hc']
  rfl

end Vga

/-! ### The keyboard -/

namespace Kbd

/-- What can go wrong in the handler. -/
inductive IrqFault where
  /-- A table is used wrongly, or there is no name. -/
  | handler (fault : Kbd.Fault)
  /-- The console is used wrongly. -/
  | console (fault : Drivers.Fault)

/-- What is done for a request. -/
def Request.perform (k : Kmalloc) (s : Vga) : Request → Except IrqFault Vga
  | .scroll m => (s.scroll k m).mapError .console
  | .name str => (s.writeName k (Rtc.chars str)).mapError .console

/-- `keyboard_irq_handler`, with the screen. -/
def irqOnScreen (k : Kmalloc) (state : State) (scancode : UInt8) (s : Vga) : Except IrqFault (State × Vga) := do
  let (state, rs) ← (keyboardIrqHandler state scancode).mapError .handler
  let s ← rs.foldlM (Request.perform k) s
  .ok (state, s)

/-- A name that fits in the strip. -/
def Fits (str : List UInt8) : Prop := str.length ≤ 15 ∧ 10 ∉ str

instance : DecidablePred Fits := fun str => inferInstanceAs (Decidable (str.length ≤ 15 ∧ 10 ∉ str))

/-- Every name of the first switch fits, -/
theorem toString_fits (code : Option Key) : Fits (Rtc.chars (toString code)) := by
  rcases code with _ | code
  · decide +kernel
  · cases code <;> decide +kernel

/-- and so does every name of the second. -/
theorem escapedToString_fits {code : Option Key} {str : String} (h : escapedToString code = some str) :
    Fits (Rtc.chars str) := by
  have hall : ∀ code, ∀ str ∈ escapedToString code, Fits (Rtc.chars str) := by
    intro code
    rcases code with _ | code
    · decide +kernel
    · cases code <;> decide +kernel
  exact hall code str h

/-- A name that the handler asks for is one of those. -/
theorem name_fits {state state' : State} {b : UInt8} {str : String}
    (h : keyboardIrqHandler state b = .ok (state', [.name str])) : Fits (Rtc.chars str) := by
  have hprefix : b ≠ 0xE0 := fun hb => by
    rw [keyboardIrqHandler, if_pos hb] at h
    cases h
  have hrequest : ∀ p : Bool, (if p then State.second else .first) = state →
      (if p then Code.escaped b else Code.plain b).request = some (.name str) := by
    intro p hp
    have hcode := keyboardIrqHandler_code hprefix p
    rw [hp, h] at hcode
    cases hreq : (if p then Code.escaped b else Code.plain b).request with
    | none =>
      rw [hreq] at hcode
      cases hcode
    | some r =>
      rw [hreq] at hcode
      cases hcode
      rfl
  cases state with
  | first =>
    have hname := hrequest false rfl
    rw [if_neg Bool.false_ne_true, Code.request] at hname
    obtain rfl := Request.name.inj (Option.some.inj hname)
    exact toString_fits _
  | second =>
    have hname := hrequest true rfl
    rw [if_pos rfl, Code.request] at hname
    split at hname
    · cases hname
    · cases hname
    · obtain ⟨str', hstr, he⟩ := Option.map_eq_some_iff.mp hname
      obtain rfl := Request.name.inj he
      exact escapedToString_fits hstr

theorem irqOnScreen_name (k : Kmalloc) {s t : Vga} {state state' : State} {b : UInt8} {str : String}
    (h : keyboardIrqHandler state b = .ok (state', [.name str])) (ht : s.writeName k (Rtc.chars str) = .ok t) :
    irqOnScreen k state b s = .ok (state', t) := by
  rw [irqOnScreen, h]
  change ([Request.name str].foldlM (Request.perform k) s >>= _) = _
  rw [List.foldlM_cons, Request.perform, ht]
  rfl

end Kbd

open Kbd Vga Rtc in
/-- **Both status writers keep to their strips**: the handler of the keyboard, on a byte for which it writes a name,
to columns 65 to 79 of row 1, and the clock to columns 70 to 79 of row 0. -/
theorem status_confined (k : Kmalloc) {s : Vga} (h : s.Inv) :
    (∀ state state' b str, keyboardIrqHandler state b = .ok (state', [.name str]) →
      ∃ t, irqOnScreen k state b s = .ok (state', t) ∧ s.Confined t 1 65) ∧
    ∀ hour < 24, ∀ min < 60, ∀ sec < 60, ∃ t, clockUpdate k (bcd hour) (bcd min) (bcd sec) s = .ok t ∧
    s.Confined t 0 70 := by
  refine ⟨fun state state' b str hname => ?_, fun hour hh min hm sec hs => ?_⟩
  · obtain ⟨hlen, hnl⟩ := name_fits hname
    obtain ⟨t, ht, hconf⟩ := writeName_spec k h hlen hnl
    exact ⟨t, irqOnScreen_name k hname ht, hconf⟩
  · obtain ⟨t, ht, -, hconf⟩ := clockUpdate_spec k h hh hm hs
    exact ⟨t, ht, hconf⟩

open Kbd Vga Rtc in
/-- The key `A` and the time 17:04:09, with the cursor in the last cell. -/
theorem status_confined_last :
    ∃ t u, irqOnScreen sampleKmalloc .first 0x1E (plainScreen 79 24 0x0720) = .ok (.first, t) ∧
      (plainScreen 79 24 0x0720).Confined t 1 65 ∧
      clockUpdate sampleKmalloc 0x17 0x04 0x09 (plainScreen 79 24 0x0720) = .ok u ∧
      (plainScreen 79 24 0x0720).Confined u 0 70 := by
  have hinv : (plainScreen 79 24 0x0720).Inv := plainScreen_inv (by decide) (by decide) 0x0720
  obtain ⟨hkey, hclock⟩ := status_confined sampleKmalloc hinv
  obtain ⟨t, ht, hconf⟩ := hkey .first .first 0x1E "A" rfl
  obtain ⟨u, hu, hconf'⟩ := hclock 17 (by decide) 4 (by decide) 9 (by decide)
  exact ⟨t, u, ht, hconf, hu, hconf'⟩

/-! ### The clock -/

namespace Vga

variable {s t : Vga}

/-- The strip of the first row shows `text`, and blanks after it. -/
structure ShowsTime (t : Vga) (text : List UInt8) : Prop where
  /-- The characters. -/
  chars : ∀ i < text.length, charByte (t.cell 0 (70 + i)) = text.getD i 0
  /-- The blanks. -/
  blank : ∀ i < 10, text.length ≤ i → Blank (t.cell 0 (70 + i))

/-- A cell of the strip after `cells` were written to it. -/
theorem rowCells_cell (buf : ℕ → UInt16) (cells : List UInt16) {i : ℕ} (hi : i < 10) :
    rowCells buf 0 70 cells (0 * vgaWidth + (70 + i)) =
      if i < cells.length then cells.getD i 0 else buf (0 * vgaWidth + (70 + i)) := by
  rw [rowCells]
  simp only [vgaWidth]
  rw [show (0 * 80 + (70 + i)) % 80 - 70 = i by omega]
  exact if_congr (by omega) rfl rfl

end Vga

open Vga Rtc in
/-- **When the clock is right.** After an update the strip shows Eastern Standard Time exactly if it is one of the
right hours and the time is ten characters long, or there was a blank behind the ninth before. -/
theorem clockUpdate_iff (k : Kmalloc) {s : Vga} (h : s.Inv) {hour min sec : ℕ} (hh : hour < 24) (hm : min < 60)
    (hs : sec < 60) :
    (∃ t, clockUpdate k (bcd hour) (bcd min) (bcd sec) s = .ok t ∧ t.ShowsTime (estText hour min sec)) ↔
      Right hour ∧ (hour = 15 ∨ hour = 16 ∨ Blank (s.cell 0 79)) := by
  obtain ⟨t, ht, hbuf, -⟩ := clockUpdate_spec k h hh hm hs
  have hlength := rtcPrint_length hh hm hs
  have hle := rtcPrint_length_le hh hm hs
  have hshown : ∀ i < (rtcPrint (bcd hour) (bcd min) (bcd sec)).length,
      charByte (t.cell 0 (70 + i)) = (rtcPrint (bcd hour) (bcd min) (bcd sec)).getD i 0 := fun i hi => by
    rw [cell, hbuf, rowCells_cell _ _ (by omega), List.length_map, if_pos hi,
      List.getD_eq_getElem _ _ (by rwa [List.length_map]), List.getElem_map, charByte_colorChar,
      List.getD_eq_getElem _ _ hi]
  have hkept : ∀ i < 10, (rtcPrint (bcd hour) (bcd min) (bcd sec)).length ≤ i → t.cell 0 (70 + i) = s.cell 0 (70 + i) :=
    fun i hi hge => by
      rw [cell, hbuf, rowCells_cell _ _ hi, List.length_map, if_neg (by omega)]
      rfl
  constructor
  · rintro ⟨t', ht', hsh⟩
    obtain rfl := Except.ok.inj (ht.symm.trans ht')
    have hright : Right hour := by
      by_contra hr
      obtain ⟨i, hi, hi', hne⟩ := rtcPrint_wrong hh hm hs hr
      exact hne ((hshown i hi).symm.trans (hsh.chars i hi'))
    refine ⟨hright, ?_⟩
    have htext := rtcPrint_right hh hm hs hright
    by_cases hten : printedHour hour < 10
    · rw [if_pos hten] at hlength
      have hblank := hsh.blank 9 (by decide) (by rw [← htext, hlength])
      rw [hkept 9 (by decide) hlength.le] at hblank
      exact .inr (.inr hblank)
    · have hhour : ∀ hour < 24, Right hour → ¬printedHour hour < 10 → hour = 15 ∨ hour = 16 := by decide
      exact (hhour hour hh hright hten).imp_right .inl
  · rintro ⟨hright, hblank⟩
    have htext := rtcPrint_right hh hm hs hright
    refine ⟨t, ht, ⟨by rw [← htext]; exact hshown, fun i hi hge => ?_⟩⟩
    rw [← htext] at hge
    rw [hkept i hi hge]
    have hnine : printedHour hour < 10 ∧ i = 9 := by
      rw [hlength] at hge
      split_ifs at hge with hten
      · exact ⟨hten, by omega⟩
      · omega
    rcases hblank with rfl | rfl | hblank
    · exact absurd hnine.1 (by decide)
    · exact absurd hnine.1 (by decide)
    · rw [hnine.2]
      exact hblank

open Vga Rtc in
/-- On a blank screen at 20:04:09 UTC. -/
theorem clockUpdate_iff_afternoon :
    ∃ t, clockUpdate sampleKmalloc (bcd 20) (bcd 4) (bcd 9) (plainScreen 0 0 0x0720) = .ok t ∧
    t.ShowsTime (estText 20 4 9) :=
  (clockUpdate_iff sampleKmalloc (plainScreen_inv (by decide) (by decide) 0x0720) (by decide) (by decide)
    (by decide)).mpr
    ⟨by decide, .inr (.inr (.inl (by decide)))⟩

open Vga Rtc in
/-- On a blank screen at 17:04:09 UTC, which is noon: `12:04:09AM`. -/
theorem clockUpdate_noon :
    ∃ t, clockUpdate sampleKmalloc (bcd 17) (bcd 4) (bcd 9) (plainScreen 0 0 0x0720) = .ok t ∧
      charByte (t.cell 0 78) = 65 ∧ (estText 17 4 9).getD 8 0 = 80 ∧ ¬t.ShowsTime (estText 17 4 9) := by
  have hinv : (plainScreen 0 0 0x0720).Inv := plainScreen_inv (by decide) (by decide) 0x0720
  obtain ⟨t, ht, hbuf, -⟩ :=
    clockUpdate_spec sampleKmalloc hinv (by decide : 17 < 24) (by decide : 4 < 60) (by decide : 9 < 60)
  have hest : (estText 17 4 9).getD 8 0 = 80 := by decide +kernel
  have hnoon : charByte (t.cell 0 78) = 65 := by
    rw [cell, hbuf]
    decide +kernel
  refine ⟨t, ht, hnoon, hest, fun hsh => ?_⟩
  have hcell := hsh.chars 8 (by decide +kernel)
  rw [hest, hnoon] at hcell
  exact absurd hcell (by decide)

end MoltarOS.Drivers
