import MoltarOS.Drivers.VgaScroll

/-!
# Printing

What `vga_putc` does, cell by cell: it writes some cells of the cursor's row, one for a character and the rest of the
row for a newline, and goes on to the cell after them, on the next row if there is none, and
scrolls if there is no next row.

## What is proved

* `vgaPutc_printed` — this, as a relation `Printed` of the states before and after.
* `document_span` — what the cells written do to the text.
-/

namespace MoltarOS.Drivers

open MoltarOS.Lib MoltarOS.Ds

namespace Vga

variable {s t : Vga} {k : Kmalloc}

/-- The cursor is on the screen, and the screen is within the lines. -/
structure Inv (s : Vga) : Prop where
  /-- The column. -/
  x : s.x < vgaWidth
  /-- The row. -/
  y : s.y < vgaHeight
  /-- There are lines to show. -/
  window : s.Window

theorem getIndex_eq (hx : s.x ≤ vgaWidth) (hy : s.y ≤ vgaHeight) : s.getIndex = .ok (s.y * vgaWidth + s.x) :=
  if_neg (by omega)

theorem updateCursor_eq (h : s.Inv) : s.updateCursor =
    .ok { s with cursor := UInt16.ofNat (s.y * vgaWidth + s.x) } := by
  rw [updateCursor, getIndex_eq h.x.le h.y.le]
  rfl

/-! ### The cells -/

/-- The columns `x` to `stop - 1` of row `y` get the cell `v`. -/
def span (buf : ℕ → UInt16) (y x stop : ℕ) (v : UInt16) : ℕ → UInt16 :=
  fun n => if n / 80 = y ∧ x ≤ n % 80 ∧ n % 80 < stop then v else buf n

theorem span_self (buf : ℕ → UInt16) (y x : ℕ) (v : UInt16) : span buf y x x v = buf := by
  funext n
  exact if_neg (by omega)

theorem span_update (buf : ℕ → UInt16) (y : ℕ) {x stop : ℕ} (v : UInt16) (hx : x < 80) (hstop : x < stop) :
    span (Function.update buf (y * 80 + x) v) y (x + 1) stop v = span buf y x stop v := by
  funext n
  unfold span
  rw [Function.update_apply]
  by_cases hn : n = y * 80 + x
  · rw [if_pos hn, ite_self, if_pos (by omega)]
  · rw [if_neg hn]
    exact if_congr (by omega) rfl rfl

theorem update_eq_span (buf : ℕ → UInt16) (y : ℕ) {x : ℕ} (v : UInt16) (hx : x < 80) :
    Function.update buf (y * 80 + x) v = span buf y x (x + 1) v := by
  rw [← span_update buf y v hx (Nat.lt_succ_self x), span_self]

theorem colorChar_congr (h : t.color = s.color) (c : UInt8) : t.colorChar c = s.colorChar c := by
  rw [colorChar, colorChar, h]

/-- The column after the cells that `vga_putc(c)` writes. -/
def putEnd (s : Vga) (c : UInt8) : ℕ := if c = 10 then vgaWidth else s.x + 1

/-- What it writes to them. -/
def putCell (s : Vga) (c : UInt8) : UInt16 := s.colorChar (if c = 10 ∨ c = 9 then 32 else c)

/-- The buffer once it has. -/
def putBuf (s : Vga) (c : UInt8) : ℕ → UInt16 := span s.buf s.y s.x (s.putEnd c) (s.putCell c)

theorem lt_putEnd (h : s.Inv) (c : UInt8) : s.x < s.putEnd c := by
  have hx := h.x
  rw [putEnd]
  split_ifs <;> omega

theorem putEnd_le (h : s.Inv) (c : UInt8) : s.putEnd c ≤ vgaWidth := by
  have hx := h.x
  rw [putEnd]
  split_ifs <;> omega

/-- The rest of the line is filled with blanks. -/
theorem fillLine_eq {turns : ℕ} (hx : s.x ≤ vgaWidth) (hy : s.y < vgaHeight) (hturns : vgaWidth ≤ s.x + turns) :
    fillLine turns s = .ok { s.withBuf (span s.buf s.y s.x vgaWidth (s.colorChar 32)) with x := vgaWidth } := by
  induction turns generalizing s with
  | zero =>
    have hend : s.x = vgaWidth := by omega
    rw [fillLine, hend, span_self, ← hend]
    rfl
  | succ turns ih =>
    by_cases hend : s.x < vgaWidth
    · have hindex : s.y * vgaWidth + s.x < vgaHeight * vgaWidth := by
        simp only [vgaWidth, vgaHeight] at *
        omega
      have hnext := @ih { s.withBuf (Function.update s.buf (s.y * vgaWidth + s.x) (s.colorChar 32)) with x := s.x + 1 }
        hend hy (by change vgaWidth ≤ s.x + 1 + turns; omega)
      rw [fillLine, if_pos ⟨hend, reserved_cursor hy⟩, getIndex_eq hx hy.le]
      change (s.write _ _ >>= _) = _
      rw [write_eq _ hindex, ← span_update s.buf s.y (s.colorChar 32) hend hend]
      exact hnext
    · have hend' : s.x = vgaWidth := by omega
      rw [fillLine, if_neg fun h => hend h.1, hend', span_self, ← hend']
      rfl

/-- `vga_putc` writes the cells, and has `x` at the last of them, or beyond. -/
theorem vgaPutc_eq (hx : s.x < vgaWidth) (hy : s.y < vgaHeight) (depth : ℕ) (c : UInt8) :
    ∃ x, vgaPutc k (depth + 1) c s = advance k { s.withBuf (s.putBuf c) with x := x } ∧
      (x + 1 < vgaWidth ↔ s.putEnd c < vgaWidth) ∧ (s.putEnd c < vgaWidth → x + 1 = s.putEnd c) := by
  by_cases hc : c = 10
  · have hend : s.putEnd c = vgaWidth := if_pos hc
    have hbuf : s.putBuf c = span s.buf s.y s.x vgaWidth (s.colorChar 32) := by
      rw [putBuf, hend, putCell, if_pos (Or.inl hc)]
    refine ⟨vgaWidth, ?_, by omega, by omega⟩
    rw [vgaPutc, if_pos hc, fillLine_eq hx.le hy (Nat.le_add_left _ _), hbuf]
    rfl
  · have hend : s.putEnd c = s.x + 1 := if_neg hc
    have hbuf : s.putBuf c = Function.update s.buf (s.y * vgaWidth + s.x) (s.colorChar (if c = 9 then 32 else c)) := by
      have hcell : s.putCell c = s.colorChar (if c = 9 then 32 else c) := by simp [putCell, hc]
      rw [putBuf, hend, hcell]
      exact (update_eq_span s.buf s.y _ hx).symm
    have hindex : s.y * vgaWidth + s.x < vgaHeight * vgaWidth := by
      simp only [vgaWidth, vgaHeight] at *
      omega
    have hreserved : ¬ reserved s.x s.y = true := by rw [reserved_cursor hy]; decide
    refine ⟨s.x, ?_, by omega, by omega⟩
    rw [vgaPutc, if_neg hc, if_neg hreserved, getIndex_eq hx.le hy.le, ok_bind, write_eq _ hindex, ok_bind, hbuf]
    rfl

/-! ### Going on -/

/-- Scrolling leaves the colour. -/
theorem vgaScrollDown_color (h : s.Window) (ht : s.vgaScrollDown k = .ok t) : t.color = s.color := by
  obtain ⟨mem, hsave, hf⟩ := saveBuffer_filed h
  obtain ⟨mem', lines, hroom, hrows, -, -⟩ := room_filed (k := k) hf ⟨h.rows, h.distinct⟩
  rw [vgaScrollDown, hsave, ok_bind, hroom, ok_bind, drawBuffer_spec hrows] at ht
  obtain rfl := Except.ok.inj ht
  rfl

/-- `t` is `s` with the cursor on the next position. -/
structure Advanced (s t : Vga) : Prop where
  /-- The cursor is on the screen, -/
  inv : t.Inv
  /-- in the next column or the first, -/
  x : t.x = if s.x + 1 < vgaWidth then s.x + 1 else 0
  /-- in this row, the next or the last, -/
  y : t.y = if s.x + 1 < vgaWidth ∨ vgaHeight ≤ s.y + 1 then s.y else s.y + 1
  /-- with the lines moved up if it stays in the last. -/
  lineNumber : t.lineNumber = if s.x + 1 < vgaWidth ∨ s.y + 1 < vgaHeight then s.lineNumber else s.lineNumber + 1
  /-- The text is the same. -/
  document : t.document = s.document
  /-- So are the strips. -/
  strip : ∀ c, Strip c → t.buf c = s.buf c
  /-- So is the colour. -/
  color : t.color = s.color

/-- Within the row. -/
theorem wrap_of_lt (hx : s.x < vgaWidth) (hy : s.y < vgaHeight) : wrap k s = .ok s := by
  refine if_neg ?_
  rw [reserved_cursor hy]
  simp only [Bool.false_eq_true, or_false, ge_iff_le, not_le]
  exact hx

/-- To the next row. -/
theorem wrap_of_row (hx : ¬ s.x < vgaWidth) (hy : s.y + 1 < vgaHeight) :
    wrap k s = .ok { s with x := 0, y := s.y + 1 } := by
  rw [wrap, if_pos (Or.inl (Nat.not_lt.mp hx))]
  exact if_neg (Nat.not_le.mpr hy)

/-- From the last row. -/
theorem wrap_of_last (hx : ¬ s.x < vgaWidth) (hy : s.y + 1 ≥ vgaHeight) :
    wrap k s = vgaScrollDown k { s with x := 0 } := by
  rw [wrap, if_pos (Or.inl (Nat.not_lt.mp hx))]
  exact if_pos hy

theorem updateCursor_advanced {u : Vga} (h : s.Advanced u) : ∃ t, u.updateCursor = .ok t ∧ s.Advanced t := by
  have hw := h.inv.window
  exact ⟨_, updateCursor_eq h.inv, ⟨h.inv.x, h.inv.y, hw.rows, hw.distinct⟩, h.x, h.y, h.lineNumber, h.document,
    h.strip, h.color⟩

theorem advance_advanced (hy : s.y < vgaHeight) (h : s.Window) : ∃ t, s.advance k = .ok t ∧ s.Advanced t := by
  have hwrap : ∃ u, wrap k { s with x := s.x + 1 } = .ok u ∧ s.Advanced u := by
    by_cases hx : s.x + 1 < vgaWidth
    · exact ⟨{ s with x := s.x + 1 }, wrap_of_lt hx hy, ⟨hx, hy, h.rows, h.distinct⟩, (if_pos hx).symm,
        (if_pos (Or.inl hx)).symm, (if_pos (Or.inl hx)).symm, rfl, fun _ _ => rfl, rfl⟩
    · by_cases hlast : s.y + 1 ≥ vgaHeight
      · obtain ⟨u, hu, hs⟩ := @vgaScrollDown_spec { s with x := 0 } k ⟨h.rows, h.distinct⟩
        have hcolor := @vgaScrollDown_color { s with x := 0 } u k ⟨h.rows, h.distinct⟩ hu
        have hwrap := (@wrap_of_last { s with x := s.x + 1 } k hx hlast).trans hu
        refine ⟨u, hwrap, ⟨?_, ?_, hs.window⟩, ?_, ?_, ?_, hs.document, hs.strip, hcolor⟩
        · rw [hs.x]
          exact Nat.zero_lt_succ 79
        · rw [hs.y]
          exact hy
        · rw [hs.x, if_neg hx]
        · rw [hs.y, if_pos (Or.inr hlast)]
        · rw [hs.lineNumber, if_neg]
          rintro (hx' | hy')
          · exact hx hx'
          · omega
      · refine ⟨{ s with x := 0, y := s.y + 1 }, @wrap_of_row { s with x := s.x + 1 } k hx (Nat.not_le.mp hlast),
          ⟨Nat.zero_lt_succ 79, Nat.not_le.mp hlast, h.rows, h.distinct⟩,
          (if_neg hx).symm, (if_neg fun hor => ?_).symm, (if_pos (Or.inr (Nat.not_le.mp hlast))).symm, rfl,
          fun _ _ => rfl, rfl⟩
        exact hor.elim hx hlast
  obtain ⟨u, hu, hadv⟩ := hwrap
  rw [advance, hu]
  exact updateCursor_advanced hadv

/-! ### One character -/

/-- `t` is `s` after `vga_putc(c)`. -/
structure Printed (s : Vga) (c : UInt8) (t : Vga) : Prop where
  /-- The cursor is on the screen, -/
  inv : t.Inv
  /-- after the cells written or in the first column, -/
  x : t.x = if s.putEnd c < vgaWidth then s.putEnd c else 0
  /-- in this row, the next or the last, -/
  y : t.y = if s.putEnd c < vgaWidth ∨ vgaHeight ≤ s.y + 1 then s.y else s.y + 1
  /-- with the lines moved up if it stays in the last. -/
  lineNumber : t.lineNumber = if s.putEnd c < vgaWidth ∨ s.y + 1 < vgaHeight then s.lineNumber else s.lineNumber + 1
  /-- The text is that with the cells written. -/
  document : t.document = (s.withBuf (s.putBuf c)).document
  /-- So are the strips. -/
  strip : ∀ n, Strip n → t.buf n = s.putBuf c n
  /-- The colour is the same. -/
  color : t.color = s.color

/-- **`vga_putc`** succeeds, and does this. -/
theorem vgaPutc_printed (h : s.Inv) (depth : ℕ) (c : UInt8) :
    ∃ t, vgaPutc k (depth + 1) c s = .ok t ∧ s.Printed c t := by
  obtain ⟨x, heq, hiff, hx⟩ := vgaPutc_eq (k := k) h.x h.y depth c
  obtain ⟨t, ht, hadv⟩ := @advance_advanced { s.withBuf (s.putBuf c) with x := x } k h.y
    ⟨h.window.rows, h.window.distinct⟩
  refine ⟨t, heq.trans ht, hadv.inv, ?_, ?_, ?_, hadv.document, hadv.strip, hadv.color⟩
  · rw [hadv.x]
    change (if x + 1 < vgaWidth then x + 1 else 0) = _
    by_cases hend : s.putEnd c < vgaWidth
    · rw [if_pos hend, if_pos (hiff.mpr hend), hx hend]
    · rw [if_neg hend, if_neg (mt hiff.mp hend)]
  · rw [hadv.y]
    exact if_congr (or_congr_left hiff) rfl rfl
  · rw [hadv.lineNumber]
    exact if_congr (or_congr_left hiff) rfl rfl

/-- Within a row. -/
theorem Printed.of_lt {c : UInt8} (hp : s.Printed c t) (hend : s.putEnd c < vgaWidth) :
    t.x = s.putEnd c ∧ t.y = s.y ∧ t.lineNumber = s.lineNumber :=
  ⟨hp.x.trans (if_pos hend), hp.y.trans (if_pos (Or.inl hend)), hp.lineNumber.trans (if_pos (Or.inl hend))⟩

/-- At the end of a row. -/
theorem Printed.of_end {c : UInt8} (hp : s.Printed c t) (h : s.Inv) (hend : ¬ s.putEnd c < vgaWidth) :
    t.x = 0 ∧ (s.y + 1 < vgaHeight ∧ t.y = s.y + 1 ∧ t.lineNumber = s.lineNumber ∨
      s.y + 1 = vgaHeight ∧ t.y = s.y ∧ t.lineNumber = s.lineNumber + 1) := by
  have hy := h.y
  refine ⟨hp.x.trans (if_neg hend), ?_⟩
  rw [hp.y, hp.lineNumber]
  by_cases hlast : s.y + 1 < vgaHeight
  · exact Or.inl ⟨hlast, if_neg (by omega), if_pos (Or.inr hlast)⟩
  · exact Or.inr ⟨by omega, if_pos (by omega), if_neg (by omega)⟩

/-- The line of the text that the cursor is on. -/
def cursorLine (s : Vga) : ℕ := s.lineNumber + s.y

/-- It goes on to the next line at the end of a line. -/
theorem Printed.cursorLine_eq {c : UInt8} (hp : s.Printed c t) (h : s.Inv) :
    t.cursorLine = if s.putEnd c < vgaWidth then s.cursorLine else s.cursorLine + 1 := by
  rw [cursorLine, cursorLine]
  split_ifs with hend
  · obtain ⟨-, hy, hn⟩ := hp.of_lt hend
    rw [hy, hn]
  · obtain ⟨-, ⟨-, hy, hn⟩ | ⟨-, hy, hn⟩⟩ := hp.of_end h hend <;> omega

/-- The cells written to a row are cells of the text, up to the reserved part. -/
theorem document_span {x stop : ℕ} {v : UInt16} (hy : s.y < vgaHeight) (n : ℕ) (j : Fin vgaWidth) :
    (s.withBuf (span s.buf s.y x stop v)).document n j =
      if n = s.cursorLine ∧ j < rowEnd s.y ∧ x ≤ j ∧ j < stop then v else s.document n j := by
  by_cases hshown : ∃ i < vgaHeight, n = s.lineNumber + i ∧ j < rowEnd i
  · obtain ⟨i, hi, rfl, hend⟩ := hshown
    have hj := j.isLt
    have hdiv : (i * vgaWidth + j) / 80 = i := by
      simp only [vgaWidth] at *
      omega
    have hmod : (i * vgaWidth + j) % 80 = j := by
      simp only [vgaWidth] at *
      omega
    have hrow := @document_row (s.withBuf (span s.buf s.y x stop v)) i j hi hend
    rw [document_row hi hend]
    refine hrow.trans ?_
    change span s.buf s.y x stop v (i * vgaWidth + j) = _
    rw [span, hdiv, hmod, cursorLine]
    refine if_congr ?_ rfl rfl
    rw [Nat.add_left_cancel_iff]
    constructor
    · rintro ⟨rfl, h1, h2⟩
      exact ⟨rfl, hend, h1, h2⟩
    · rintro ⟨rfl, -, h1, h2⟩
      exact ⟨rfl, h1, h2⟩
  · have hout : ¬ (s.lineNumber ≤ n ∧ n < s.lineNumber + vgaHeight ∧ j < rowEnd (n - s.lineNumber)) := fun h =>
      hshown ⟨n - s.lineNumber, by omega, by omega, h.2.2⟩
    have hcursor : ¬ (n = s.cursorLine ∧ j < rowEnd s.y ∧ x ≤ j ∧ j < stop) := fun h =>
      hshown ⟨s.y, hy, h.1, h.2.1⟩
    rw [if_neg hcursor, document, document, if_neg hout]
    exact if_neg hout

/-! ### Strings -/

/-- The characters of a string, up to the 0 that ends it. -/
def textOf (str : List UInt8) : List UInt8 := str.takeWhile (· ≠ 0)

/-- `vga_print` prints them one after the other. -/
theorem vgaPrint_eq (str : List UInt8) : vgaPrint k str s = (textOf str).foldlM (fun s c => vgaPutc k 1 c s) s := by
  induction str generalizing s with
  | nil => rfl
  | cons c str ih =>
    rw [vgaPrint, textOf]
    by_cases hc : c = 0
    · rw [if_pos hc, List.takeWhile_cons_of_neg (by simp [hc])]
      rfl
    · rw [if_neg hc, List.takeWhile_cons_of_pos (by simp [hc]), List.foldlM_cons]
      exact bind_congr fun t => ih

end Vga

end MoltarOS.Drivers
