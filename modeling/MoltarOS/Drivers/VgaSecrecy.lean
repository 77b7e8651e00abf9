import MoltarOS.Drivers.VgaPrint
import MoltarOS.Lib.Machine

/-!
# What the screen does not depend on

`kmalloc` hands out the buffer of a line with whatever is in it. `save_buffer` writes it as far as the row goes that
shows the line, and `draw_buffer` reads it as far as the row goes that is to show it: a line that goes from a row to
one that is longer is read where it was never written. The first row is longer than the second.

## What is proved

* `same_screens_iff` — two runs of the same calls show the same screens, whatever the buffers hold, exactly if the
  five cells that the second row lacks agree whenever the screen scrolls down from the first line. All else that is
  shown was saved, or is blank.
* `screens_differ` — they are shown as they were handed out.
-/

namespace MoltarOS.Drivers

open MoltarOS.Lib MoltarOS.Ds

namespace Vga

variable {s t u s' t' : Vga} {k k' : Kmalloc}

/-! ### The code, without the lines -/

theorem line_ok {idx : ℕ} {l : LineRef} (h : s.line idx = .ok l) : idx < s.lines.used := by
  by_contra hout
  rw [line, if_neg hout] at h
  cases h

theorem saveRow_ok {i : ℕ} (h : s.saveRow i = .ok t) : s.lineNumber + i < s.lines.used ∧ ∃ mem, t = s.withMem mem := by
  obtain ⟨l, hl, -⟩ := bind_eq_ok h
  have hrow := line_ok hl
  exact ⟨hrow, _, Except.ok.inj (h.symm.trans (saveRow_eq hrow))⟩

/-- `save_buffer` fails if a row has no line. -/
theorem rows_of_saveBuffer (h : s.saveBuffer = .ok t) : s.lineNumber + vgaHeight ≤ s.lines.used := by
  obtain ⟨v, w, ⟨mem, rfl⟩, hw⟩ := forLoop_ok (I := fun u => ∃ mem, u = s.withMem mem) (fun i v w hv hw => by
    obtain ⟨mem, rfl⟩ := hv
    exact ⟨_, (saveRow_ok hw).2.choose_spec⟩) ⟨s.mem, rfl⟩ h (Nat.lt_succ_self 24)
  have hrow : s.lineNumber + 24 < s.lines.used := (saveRow_ok hw).1
  exact hrow

theorem rows_of_scrollDown (h : s.vgaScrollDown k = .ok t) : s.lineNumber + vgaHeight ≤ s.lines.used := by
  obtain ⟨v, hsave, -⟩ := bind_eq_ok h
  exact rows_of_saveBuffer hsave

theorem rows_of_scrollUp (hline : s.lineNumber ≠ 0) (h : s.vgaScrollUp = .ok t) :
    s.lineNumber + vgaHeight ≤ s.lines.used := by
  rw [vgaScrollUp, if_neg hline] at h
  obtain ⟨v, hsave, -⟩ := bind_eq_ok h
  exact rows_of_saveBuffer hsave

theorem vgaScrollUp_color (h : s.Window) (ht : s.vgaScrollUp = .ok t) : t.color = s.color := by
  by_cases hzero : s.lineNumber = 0
  · rw [vgaScrollUp, if_pos hzero] at ht
    obtain rfl := Except.ok.inj ht
    rfl
  · obtain ⟨mem, hsave, -⟩ := saveBuffer_filed h
    have hrows : s.lineNumber - 1 + vgaHeight ≤ s.lines.used := by
      have hrows := h.rows
      omega
    rw [vgaScrollUp, if_neg hzero, hsave, ok_bind] at ht
    obtain rfl := Except.ok.inj (ht.symm.trans (drawBuffer_spec hrows))
    rfl

/-- The character ends the last row. -/
def EndsScreen (s : Vga) (c : UInt8) : Prop := ¬ s.putEnd c < vgaWidth ∧ s.y + 1 = vgaHeight

theorem advance_stay (hy : s.y < vgaHeight) (hstay : s.x + 1 < vgaWidth ∨ s.y + 1 < vgaHeight) :
    ∃ x y pos, s.advance k = .ok { s with x := x, y := y, cursor := pos } ∧
    x = (if s.x + 1 < vgaWidth then s.x + 1 else 0) ∧
      x < vgaWidth ∧ y = (if s.x + 1 < vgaWidth then s.y else s.y + 1) ∧ y < vgaHeight := by
  by_cases hx : s.x + 1 < vgaWidth
  · rw [advance, wrap_of_lt (s := { s with x := s.x + 1 }) hx hy, ok_bind, updateCursor,
      getIndex_eq (s := { s with x := s.x + 1 }) hx.le hy.le]
    exact ⟨_, _, _, rfl, (if_pos hx).symm, hx, (if_pos hx).symm, hy⟩
  · have hrow := hstay.resolve_left hx
    rw [advance, wrap_of_row (s := { s with x := s.x + 1 }) hx hrow, ok_bind, updateCursor,
      getIndex_eq (s := { s with x := 0, y := s.y + 1 }) (Nat.zero_le _) hrow.le]
    exact ⟨_, _, _, rfl, (if_neg hx).symm, Nat.zero_lt_succ 79, (if_neg hx).symm, hrow⟩

theorem advance_scrolls (hx : ¬ s.x + 1 < vgaWidth) (hy : s.y + 1 = vgaHeight) (h : s.advance k = .ok t) :
    ∃ w pos, vgaScrollDown k { s with x := 0 } = .ok w ∧ t = { w with cursor := pos } := by
  rw [advance, wrap_of_last (s := { s with x := s.x + 1 }) hx hy.ge] at h
  obtain ⟨w, hw, hcursor⟩ := bind_eq_ok h
  obtain ⟨pos, -, ht⟩ := bind_eq_ok hcursor
  exact ⟨w, _, hw, (Except.ok.inj ht).symm⟩

/-- `vga_putc` without scrolling. -/
theorem vgaPutc_stay (hx : s.x < vgaWidth) (hy : s.y < vgaHeight) (depth : ℕ) {c : UInt8} (hstay : ¬ s.EndsScreen c) :
    ∃ x y pos, vgaPutc k (depth + 1) c s = .ok { s.withBuf (s.putBuf c) with x := x, y := y, cursor := pos } ∧
      x = (if s.putEnd c < vgaWidth then s.putEnd c else 0) ∧ x < vgaWidth ∧
      y = (if s.putEnd c < vgaWidth then s.y else s.y + 1) ∧ y < vgaHeight := by
  obtain ⟨x, heq, hiff, hnext⟩ := vgaPutc_eq (k := k) hx hy depth c
  have hrow : x + 1 < vgaWidth ∨ s.y + 1 < vgaHeight := by
    by_contra hlast
    obtain ⟨hcol, hrow⟩ := not_or.mp hlast
    exact hstay ⟨mt hiff.mpr hcol, by omega⟩
  obtain ⟨x', y', pos, hadv, hx', hlt, hy', hlt'⟩ :=
    advance_stay (s := { s.withBuf (s.putBuf c) with x := x }) (k := k) hy hrow
  refine ⟨x', y', pos, heq.trans hadv, hx'.trans ?_, hlt, hy'.trans (if_congr hiff rfl rfl), hlt'⟩
  by_cases hend : s.putEnd c < vgaWidth
  · exact (if_pos (hiff.mpr hend)).trans ((hnext hend).trans (if_pos hend).symm)
  · exact (if_neg (mt hiff.mp hend)).trans (if_neg hend).symm

/-- `vga_putc` with scrolling. -/
theorem vgaPutc_scrolls (hx : s.x < vgaWidth) (hy : s.y < vgaHeight) (depth : ℕ) {c : UInt8} (hend : s.EndsScreen c)
    (h : vgaPutc k (depth + 1) c s = .ok t) :
    ∃ w pos, vgaScrollDown k { s.withBuf (s.putBuf c) with x := 0 } = .ok w ∧ t = { w with cursor := pos } := by
  obtain ⟨x, heq, hiff, -⟩ := vgaPutc_eq (k := k) hx hy depth c
  exact advance_scrolls (s := { s.withBuf (s.putBuf c) with x := x }) (mt hiff.mp hend.1) hend.2 (heq.symm.trans h)

/-! ### Calls -/

/-- The calls. -/
inductive Call where
  /-- `vga_dynamic_init`. -/
  | init
  /-- `vga_putc`. -/
  | putc (c : UInt8)
  /-- `vga_scroll_up` or `vga_scroll_down`. -/
  | scroll (m : Move)

/-- What is no line's is as `kmalloc` will hand it out. -/
def handOut (s : Vga) (fresh : LineRef → ℕ → UInt16) : Vga :=
  s.withMem fun p => if p ∈ s.lines.toList then s.mem p else fresh p

/-- One call, with what the buffers hold that are handed out in it. The lines there were before `vga_dynamic_init`
are no lines any more. -/
def call (k : Kmalloc) (s : Vga) (fresh : LineRef → ℕ → UInt16) : Call → Except Fault Vga
  | .init => (s.withMem fresh).vgaDynamicInit k
  | .putc c => vgaPutc k 1 c (s.handOut fresh)
  | .scroll m => (s.handOut fresh).scroll k m

/-- The call scrolls down. -/
def ScrollsDown (s : Vga) : Call → Prop
  | .init => False
  | .putc c => s.EndsScreen c
  | .scroll .down => True
  | .scroll .up => False

/-- What is handed out is not part of the text. -/
theorem handOut_document (s : Vga) (fresh : LineRef → ℕ → UInt16) : (s.handOut fresh).document = s.document := by
  funext n j
  by_cases hn : n < s.lines.used
  · have hmem : (s.handOut fresh).mem (s.lines.data n) = s.mem (s.lines.data n) := if_pos (data_mem hn)
    refine if_congr Iff.rfl rfl ?_
    change (if n < s.lines.used then (s.handOut fresh).mem (s.lines.data n) j else _) = _
    rw [hmem]
    rfl
  · exact if_congr Iff.rfl rfl ((if_neg hn).trans (if_neg hn).symm)

/-! ### What is shown of a line -/

/-- How far line `n` is read by the time that `line_number` is `top`: at first as far as its row goes, and then as
far as the first row, for the lines that get there. -/
def shownEnd (top n : ℕ) : ℕ := if top = 0 then rowEnd n else if n < 2 then 70 else 80

theorem shownEnd_zero (n : ℕ) : shownEnd 0 n = rowEnd n := if_pos rfl

theorem shownEnd_pos {top : ℕ} (htop : top ≠ 0) (n : ℕ) : shownEnd top n = if n < 2 then 70 else 80 := if_neg htop

theorem shownEnd_le {top top' : ℕ} (htop : top ≠ 0) (n : ℕ) : shownEnd top' n ≤ shownEnd top n := by
  rw [shownEnd_pos htop, shownEnd, rowEnd]
  split_ifs <;> omega

/-- Once the screen has scrolled, a line is read no further than that. -/
theorem rowEnd_le_shownEnd {top : ℕ} (htop : top ≠ 0) (n i : ℕ) : rowEnd i ≤ shownEnd top (n + i) := by
  rw [shownEnd_pos htop, rowEnd]
  split_ifs <;> omega

/-! ### Two states -/

/-- All that the two states show, or will show, is the same. -/
structure Agree (s t : Vga) : Prop where
  /-- The column. -/
  x : s.x = t.x
  /-- The row. -/
  y : s.y = t.y
  /-- The colour. -/
  color : s.color = t.color
  /-- The window. -/
  lineNumber : s.lineNumber = t.lineNumber
  /-- The screen. -/
  buf : s.buf = t.buf
  /-- The text, if there is a line for each row. -/
  text : s.lineNumber + vgaHeight ≤ s.lines.used → t.lineNumber + vgaHeight ≤ t.lines.used →
    ∀ n (j : Fin vgaWidth), j < shownEnd s.lineNumber n → s.document n j = t.document n j

/-- What each state of its own satisfies. -/
structure Sound (s : Vga) : Prop where
  /-- The column. -/
  x : s.x < vgaWidth
  /-- The row. -/
  y : s.y < vgaHeight
  /-- The lines are distinct. -/
  distinct : s.lines.toList.Nodup

theorem Agree.sameScreen (h : s.Agree t) : s.SameScreen t := fun i _ j _ => congrFun h.buf (i * vgaWidth + j)

theorem Agree.handOut (h : s.Agree t) (fresh fresh' : LineRef → ℕ → UInt16) :
    (s.handOut fresh).Agree (t.handOut fresh') := by
  refine ⟨h.x, h.y, h.color, h.lineNumber, h.buf, ?_⟩
  rw [handOut_document, handOut_document]
  exact h.text

/-- The screens are the same if the texts are, in the window. -/
theorem sameScreen_iff (hline : s.lineNumber = t.lineNumber) (hstrip : ∀ c, Strip c → s.buf c = t.buf c) :
    s.SameScreen t ↔
      ∀ i < vgaHeight, ∀ j : Fin vgaWidth, j < rowEnd i →
        s.document (s.lineNumber + i) j = t.document (s.lineNumber + i) j := by
  have hrow : ∀ i < vgaHeight, ∀ j : Fin vgaWidth, j < rowEnd i →
      (s.document (s.lineNumber + i) j = t.document (s.lineNumber + i) j ↔ s.cell i j = t.cell i j) := by
    intro i hi j hj
    rw [document_row hi hj, hline, document_row hi hj]
    rfl
  constructor
  · exact fun h i hi j hj => (hrow i hi j hj).mpr (h i hi j j.isLt)
  · intro h i hi j hj
    by_cases hend : j < rowEnd i
    · exact (hrow i hi ⟨j, hj⟩ hend).mp (h i hi ⟨j, hj⟩ hend)
    · exact hstrip _ (strip_of_rowEnd hj (Nat.not_lt.mp hend))

/-- The same screens are the same buffers, if the rest is. -/
theorem SameScreen.buf_eq (h : s.SameScreen t) (hstrip : ∀ c, Strip c → s.buf c = t.buf c) : s.buf = t.buf := by
  funext c
  by_cases hc : Strip c
  · exact hstrip c hc
  · obtain ⟨hrow, -⟩ := not_not.mp hc
    have hcell : s.buf (c / 80 * 80 + c % 80) = t.buf (c / 80 * 80 + c % 80) :=
      h (c / 80) hrow (c % 80) (Nat.mod_lt _ (by decide))
    rwa [Nat.div_add_mod'] at hcell

/-! ### Writing -/

theorem Agree.putEnd (h : s.Agree t) (c : UInt8) : s.putEnd c = t.putEnd c := by rw [Vga.putEnd, Vga.putEnd, h.x]

/-- A character that is printed in both is the same in both. -/
theorem Agree.put (h : s.Agree t) (hs : s.Sound) (c : UInt8) {x y x' y' : ℕ} (hx : x = x') (hy : y = y')
    (pos pos' : UInt16) :
    Agree { s.withBuf (s.putBuf c) with x := x, y := y, cursor := pos }
      { t.withBuf (t.putBuf c) with x := x', y := y', cursor := pos' } := by
  have hend := h.putEnd c
  have hcell : s.putCell c = t.putCell c := by rw [putCell, putCell, colorChar_congr h.color]
  have hbuf : s.putBuf c = t.putBuf c := by rw [putBuf, putBuf, h.buf, h.y, h.x, hend, hcell]
  refine ⟨hx, hy, h.color, h.lineNumber, hbuf, fun hrows hrows' n j hj => ?_⟩
  have hleft : (s.withBuf (s.putBuf c)).document n j = _ := document_span hs.y n j
  have hright : (t.withBuf (t.putBuf c)).document n j = _ := document_span (h.y ▸ hs.y) n j
  have hsame : s.cursorLine = t.cursorLine := by rw [cursorLine, cursorLine, h.lineNumber, h.y]
  rw [← hsame, ← h.y, ← h.x, ← hend, ← hcell, ← h.text hrows hrows' n j hj] at hright
  exact hleft.trans hright.symm

/-! ### Scrolling -/

/-- The window moves in both. -/
theorem Agree.scrolled (h : s.Agree t) {n : ℕ} (hs : s.Scrolled s' n) (ht : t.Scrolled t' n)
    (hcolor : s'.color = s.color) (hcolor' : t'.color = t.color) :
    (s'.SameScreen t' ↔ ∀ i < vgaHeight, ∀ j : Fin vgaWidth, j < rowEnd i →
      s.document (n + i) j = t.document (n + i) j) ∧
      (s'.SameScreen t' → (∀ l (j : Fin vgaWidth), j < shownEnd n l → s.document l j = t.document l j) →
        s'.Agree t') := by
  have hline : s'.lineNumber = t'.lineNumber := hs.lineNumber.trans ht.lineNumber.symm
  have hstrip : ∀ c, Strip c → s'.buf c = t'.buf c := fun c hc =>
    (hs.strip c hc).trans ((congrFun h.buf c).trans (ht.strip c hc).symm)
  constructor
  · rw [sameScreen_iff hline hstrip, hs.document, ht.document, hs.lineNumber]
  · intro hsame htext
    refine ⟨?_, ?_, ?_, hline, hsame.buf_eq hstrip, fun _ _ => ?_⟩
    · rw [hs.x, h.x, ht.x]
    · rw [hs.y, h.y, ht.y]
    · rw [hcolor, h.color, hcolor']
    · rw [hs.document, ht.document, hs.lineNumber]
      exact htext

/-- Once the screen has scrolled, all that a move shows is the same. -/
theorem Agree.moved (h : s.Agree t) (hw : s.Window) (hw' : t.Window) (htop : s.lineNumber ≠ 0) {n : ℕ}
    (hs : s.Scrolled s' n)
    (ht : t.Scrolled t' n) (hcolor : s'.color = s.color) (hcolor' : t'.color = t.color) : s'.Agree t' := by
  obtain ⟨hiff, hagree⟩ := h.scrolled hs ht hcolor hcolor'
  refine hagree (hiff.mpr fun i _ j hj => ?_) fun l j hj => ?_
  · exact h.text hw.rows hw'.rows _ j (hj.trans_le (rowEnd_le_shownEnd htop n i))
  · exact h.text hw.rows hw'.rows _ j (hj.trans_le (shownEnd_le htop l))

/-- What scrolling down comes to. -/
theorem Sound.scrolled_down (hs : s.Sound) (h : s.vgaScrollDown k = .ok s') :
    s.Window ∧ s.Scrolled s' (s.lineNumber + 1) ∧ s'.color = s.color := by
  have hw : s.Window := ⟨rows_of_scrollDown h, hs.distinct⟩
  obtain ⟨u, hu, hmove⟩ := vgaScrollDown_spec (k := k) hw
  obtain rfl : u = s' := Except.ok.inj (hu.symm.trans h)
  exact ⟨hw, hmove, vgaScrollDown_color hw h⟩

/-- What scrolling up comes to, unless the first line is shown. -/
theorem Sound.scrolled_up (hs : s.Sound) (hline : s.lineNumber ≠ 0) (h : s.vgaScrollUp = .ok s') :
    s.Window ∧ s.Scrolled s' (s.lineNumber - 1) ∧ s'.color = s.color := by
  have hw : s.Window := ⟨rows_of_scrollUp hline h, hs.distinct⟩
  obtain ⟨u, hu, hmove⟩ := vgaScrollUp_spec hw
  obtain rfl : u = s' := Except.ok.inj (hu.symm.trans h)
  exact ⟨hw, hmove, vgaScrollUp_color hw h⟩

theorem Agree.scrollUp (h : s.Agree t) (hs : s.Sound) (ht : t.Sound) (hup : s.vgaScrollUp = .ok s')
    (hup' : t.vgaScrollUp = .ok t') : s'.Agree t' := by
  by_cases hzero : s.lineNumber = 0
  · rw [vgaScrollUp, if_pos hzero] at hup
    rw [vgaScrollUp, if_pos (h.lineNumber ▸ hzero)] at hup'
    obtain rfl := Except.ok.inj hup
    obtain rfl := Except.ok.inj hup'
    exact h
  · obtain ⟨hw, hmove, hcolor⟩ := hs.scrolled_up hzero hup
    obtain ⟨hw', hmove', hcolor'⟩ := ht.scrolled_up (h.lineNumber ▸ hzero) hup'
    rw [← h.lineNumber] at hmove'
    exact h.moved hw hw' hzero hmove hmove' hcolor hcolor'

/-- The cells of the second line that its row does not have and the first row has. -/
def SameGap (s t : Vga) : Prop := ∀ j, 65 ≤ j → j < 70 → s.mem (s.rowLine 1) j = t.mem (t.rowLine 1) j

/-- The line is not handed out any more. -/
theorem handOut_gap (hrows : s.lineNumber + vgaHeight ≤ s.lines.used) (hrows' : t.lineNumber + vgaHeight ≤ t.lines.used)
    (fresh fresh' : LineRef → ℕ → UInt16) : (s.handOut fresh).SameGap (t.handOut fresh') ↔ s.SameGap t := by
  have hline : ∀ {u : Vga} (f : LineRef → ℕ → UInt16), u.lineNumber + vgaHeight ≤ u.lines.used →
      (u.handOut f).mem ((u.handOut f).rowLine 1) = u.mem (u.rowLine 1) := fun f hu =>
    if_pos (data_mem (lt_of_lt_of_le (Nat.add_lt_add_left (by decide) _) hu))
  rw [SameGap, SameGap, hline fresh hrows, hline fresh' hrows']

/-- At first these cells are in memory only. -/
theorem document_gap (hw : s.Window) (hzero : s.lineNumber = 0) {j : Fin vgaWidth} (hlo : 65 ≤ j.val) :
    s.document 1 j = s.mem (s.rowLine 1) j := by
  have hrows := hw.rows
  have hone : s.rowLine 1 = s.lines.data 1 := by rw [rowLine, hzero]
  rw [hone]
  refine document_line (by rw [vgaHeight] at hrows; omega) fun i _ he => ?_
  obtain rfl : i = 1 := by omega
  exact hlo

/-- What is shown of the lines once the second is in the first row is the same in both if these cells are. -/
theorem Agree.document_of_gap (h : s.Agree t) (hw : s.Window) (hw' : t.Window) (hzero : s.lineNumber = 0)
    (hgap : s.SameGap t) {l : ℕ} {j : Fin vgaWidth} (hj : j < shownEnd 1 l) : s.document l j = t.document l j := by
  by_cases hlo : l = 1 ∧ 65 ≤ j.val
  · obtain ⟨rfl, hlo⟩ := hlo
    rw [document_gap hw hzero hlo, document_gap hw' (h.lineNumber ▸ hzero) hlo]
    exact hgap j hlo (by rwa [shownEnd_pos Nat.one_ne_zero, if_pos (Nat.lt_succ_self 1)] at hj)
  · refine h.text hw.rows hw'.rows l j ?_
    rw [shownEnd_pos Nat.one_ne_zero] at hj
    rw [hzero, shownEnd_zero, rowEnd]
    split_ifs at hj ⊢ <;> omega

/-- The screens are the same after scrolling down exactly if these cells are, where it is the first time. -/
theorem Agree.scrollDown (h : s.Agree t) (hs : s.Sound) (ht : t.Sound) (hdown : s.vgaScrollDown k = .ok s')
    (hdown' : t.vgaScrollDown k' = .ok t') :
    (s'.SameScreen t' ↔ (s.lineNumber = 0 → s.SameGap t)) ∧ (s'.SameScreen t' → s'.Agree t') := by
  obtain ⟨hw, hmove, hcolor⟩ := hs.scrolled_down hdown
  obtain ⟨hw', hmove', hcolor'⟩ := ht.scrolled_down hdown'
  rw [← h.lineNumber] at hmove'
  by_cases hzero : s.lineNumber = 0
  · obtain ⟨hiff, hagree⟩ := h.scrolled hmove hmove' hcolor hcolor'
    have hzero' : t.lineNumber = 0 := h.lineNumber ▸ hzero
    rw [hzero] at hiff hagree
    have hgap : s'.SameScreen t' ↔ s.SameGap t := by
      rw [hiff]
      constructor
      · intro hsame j hlo hhi
        have hj : j < vgaWidth := by
          rw [vgaWidth]
          omega
        have hcell := hsame 0 (Nat.zero_lt_succ 24) ⟨j, hj⟩ hhi
        rwa [document_gap hw hzero hlo, document_gap hw' hzero' hlo] at hcell
      · exact fun hsame i _ j hj =>
          h.document_of_gap hw hw' hzero hsame (hj.trans_le (rowEnd_le_shownEnd Nat.one_ne_zero 1 i))
    refine ⟨hgap.trans ⟨fun hsame _ => hsame, fun hsame => hsame hzero⟩, fun hsame => hagree hsame fun l j hj => ?_⟩
    exact h.document_of_gap hw hw' hzero (hgap.mp hsame) hj
  · have hagree := h.moved hw hw' hzero hmove hmove' hcolor hcolor'
    exact ⟨iff_of_true hagree.sameScreen fun he => absurd he hzero, fun _ => hagree⟩

/-! ### One call -/

theorem Sound.scrollDown (hs : s.Sound) (h : s.vgaScrollDown k = .ok s') : s'.Sound := by
  obtain ⟨-, hmove, -⟩ := hs.scrolled_down h
  exact ⟨hmove.x ▸ hs.x, hmove.y ▸ hs.y, hmove.window.distinct⟩

theorem Sound.scrollUp (hs : s.Sound) (h : s.vgaScrollUp = .ok s') : s'.Sound := by
  by_cases hzero : s.lineNumber = 0
  · rw [vgaScrollUp, if_pos hzero] at h
    obtain rfl := Except.ok.inj h
    exact hs
  · obtain ⟨-, hmove, -⟩ := hs.scrolled_up hzero h
    exact ⟨hmove.x ▸ hs.x, hmove.y ▸ hs.y, hmove.window.distinct⟩

/-- The cursor goes to the first column, with whatever was printed. -/
theorem Sound.wrap (hs : s.Sound) (buf : ℕ → UInt16) : Sound { s.withBuf buf with x := 0 } :=
  ⟨Nat.zero_lt_succ 79, hs.y, hs.distinct⟩

theorem Sound.handOut (hs : s.Sound) (fresh : LineRef → ℕ → UInt16) :
    (s.handOut fresh).Sound := ⟨hs.x, hs.y, hs.distinct⟩

theorem Sound.call (hs : s.Sound) {fresh : LineRef → ℕ → UInt16} {c : Call} (h : s.call k fresh c = .ok s') :
    s'.Sound := by
  cases c with
  | init =>
    obtain ⟨lines, hinit, -, hd⟩ := vgaDynamicInit_spec (s := s.withMem fresh) k
    obtain rfl := Except.ok.inj (hinit.symm.trans h)
    exact ⟨hs.x, hs.y, hd⟩
  | putc c =>
    by_cases hend : (s.handOut fresh).EndsScreen c
    · obtain ⟨w, pos, hw, rfl⟩ := vgaPutc_scrolls (s := s.handOut fresh) hs.x hs.y 0 hend h
      have hsound := ((hs.handOut fresh).wrap _).scrollDown hw
      exact ⟨hsound.x, hsound.y, hsound.distinct⟩
    · obtain ⟨x, y, pos, hstay, -, hx, -, hy⟩ := vgaPutc_stay (s := s.handOut fresh) (k := k) hs.x hs.y 0 hend
      obtain rfl := Except.ok.inj (hstay.symm.trans h)
      exact ⟨hx, hy, hs.distinct⟩
  | scroll m =>
    cases m with
    | up => exact (hs.handOut fresh).scrollUp h
    | down => exact (hs.handOut fresh).scrollDown h

/-- The first lines are not saved yet, and nothing of them is read but where the screen is. -/
theorem Agree.init (h : s.Agree t) {fresh fresh' : LineRef → ℕ → UInt16}
    (hi : (s.withMem fresh).vgaDynamicInit k = .ok s')
    (hi' : (t.withMem fresh').vgaDynamicInit k' = .ok t') : s'.Agree t' := by
  obtain ⟨lines, hinit, hused, -⟩ := vgaDynamicInit_spec (s := s.withMem fresh) k
  obtain ⟨lines', hinit', hused', -⟩ := vgaDynamicInit_spec (s := t.withMem fresh') k'
  obtain rfl := Except.ok.inj (hinit.symm.trans hi)
  obtain rfl := Except.ok.inj (hinit'.symm.trans hi')
  refine ⟨h.x, h.y, h.color, h.lineNumber, h.buf, fun hrows hrows' n j hj => ?_⟩
  have hzero : s.lineNumber = 0 := by
    change s.lineNumber + vgaHeight ≤ lines.used at hrows
    omega
  have hj' : j < rowEnd n := by
    change j < shownEnd s.lineNumber n at hj
    rwa [hzero, shownEnd_zero] at hj
  by_cases hn : n < vgaHeight
  · have hleft := document_row (s := { s.withMem fresh with lines := lines }) hn hj'
    have hright := document_row (s := { t.withMem fresh' with lines := lines' }) hn hj'
    change _ = s.buf _ at hleft
    change _ = t.buf _ at hright
    change document _ (s.lineNumber + n) j = _ at hleft
    change document _ (t.lineNumber + n) j = _ at hright
    rw [← h.lineNumber, ← h.buf] at hright
    rw [hzero, Nat.zero_add] at hleft hright
    exact hleft.trans hright.symm
  · have hblank := document_blank hrows (j := j) (hused.le.trans (Nat.not_lt.mp hn))
    have hblank' := document_blank hrows' (j := j) (hused'.le.trans (Nat.not_lt.mp hn))
    exact hblank.trans ((colorChar_congr h.color.symm 32).symm.trans hblank'.symm)

/-- **One call** in both shows the same screens exactly if it does not show the cells that differ. -/
theorem Agree.call (h : s.Agree t) (hs : s.Sound) (ht : t.Sound) {fresh fresh' : LineRef → ℕ → UInt16} {c : Call}
    (hc : s.call k fresh c = .ok s') (hc' : t.call k' fresh' c = .ok t') :
    (s'.SameScreen t' ↔ (s.lineNumber = 0 → s.ScrollsDown c → s.SameGap t)) ∧ (s'.SameScreen t' → s'.Agree t') := by
  have hfresh := h.handOut fresh fresh'
  have hquiet : s'.Agree t' → ¬ s.ScrollsDown c →
      (s'.SameScreen t' ↔ (s.lineNumber = 0 → s.ScrollsDown c → s.SameGap t)) ∧ (s'.SameScreen t' → s'.Agree t') :=
    fun hagree hno => ⟨iff_of_true hagree.sameScreen fun _ hdown => absurd hdown hno, fun _ => hagree⟩
  cases c with
  | init => exact hquiet (h.init hc hc') id
  | putc c =>
    have hsame : s.EndsScreen c ↔ t.EndsScreen c := by rw [EndsScreen, EndsScreen, h.putEnd c, h.y]
    by_cases hend : s.EndsScreen c
    · obtain ⟨w, pos, hw, rfl⟩ := vgaPutc_scrolls (s := s.handOut fresh) hs.x hs.y 0 hend hc
      obtain ⟨w', pos', hw', rfl⟩ := vgaPutc_scrolls (s := t.handOut fresh') ht.x ht.y 0 (hsame.mp hend) hc'
      have hput := hfresh.put (hs.handOut fresh) c (rfl : 0 = 0) h.y s.cursor t.cursor
      obtain ⟨hiff, hagree⟩ := hput.scrollDown ((hs.handOut fresh).wrap _) ((ht.handOut fresh').wrap _) hw hw'
      have hrows := rows_of_scrollDown hw
      have hrows' := rows_of_scrollDown hw'
      have hgap := handOut_gap (s := s) (t := t) hrows hrows' fresh fresh'
      refine ⟨hiff.trans (imp_congr_right fun _ => ?_), fun hscreen => ?_⟩
      · exact hgap.trans ⟨fun hcells _ => hcells, fun hcells => hcells hend⟩
      · obtain ⟨hx, hy, hcolor, hline, hbuf, htext⟩ := hagree hscreen
        exact ⟨hx, hy, hcolor, hline, hbuf, htext⟩
    · obtain ⟨x, y, pos, hstay, hx, -, hy, -⟩ := vgaPutc_stay (s := s.handOut fresh) (k := k) hs.x hs.y 0 hend
      obtain ⟨x', y', pos', hstay', hx', -, hy', -⟩ :=
        vgaPutc_stay (s := t.handOut fresh') (k := k') ht.x ht.y 0 (mt hsame.mpr hend)
      obtain rfl := Except.ok.inj (hstay.symm.trans hc)
      obtain rfl := Except.ok.inj (hstay'.symm.trans hc')
      refine hquiet (hfresh.put (hs.handOut fresh) c ?_ ?_ pos pos') hend
      · rw [hx, hx', hfresh.putEnd c]
      · rw [hy, hy', hfresh.putEnd c, hfresh.y]
  | scroll m =>
    cases m with
    | up => exact hquiet (hfresh.scrollUp (hs.handOut fresh) (ht.handOut fresh') hc hc') id
    | down =>
      obtain ⟨hiff, hagree⟩ := hfresh.scrollDown (hs.handOut fresh) (ht.handOut fresh') hc hc'
      have hrows := rows_of_scrollDown (s := s.handOut fresh) hc
      have hrows' := rows_of_scrollDown (s := t.handOut fresh') hc'
      have hgap := handOut_gap (s := s) (t := t) hrows hrows' fresh fresh'
      refine ⟨hiff.trans (imp_congr_right fun _ => ?_), hagree⟩
      exact hgap.trans ⟨fun hcells _ => hcells, fun hcells => hcells trivial⟩

end Vga

/-! ### Two runs -/

/-- A call that is made in two runs, with what the buffers hold that are handed out in it, in the one and in the
other. -/
structure Twice where
  /-- The call. -/
  call : Vga.Call
  /-- What the buffers hold in the one run, -/
  fresh : LineRef → ℕ → UInt16
  /-- and in the other. -/
  fresh' : LineRef → ℕ → UInt16

/-- Two runs of the same calls. -/
def twoScreens (k k' : Kmalloc) : Machine (Vga × Vga) Twice where
  step p o := do
    let s ← (p.1.call k o.fresh o.call).toOption
    let t ← (p.2.call k' o.fresh' o.call).toOption
    return (s, t)

/-- The screens are identical after the call. -/
def SameAfter (k k' : Kmalloc) (p : Vga × Vga) (o : Twice) : Prop :=
  ∀ q, (twoScreens k k').step p o = some q → q.1.SameScreen q.2

/-- If the call scrolls down from the first line on, the five cells are the same in both. -/
def GapSame (p : Vga × Vga) (o : Twice) : Prop := p.1.lineNumber = 0 → p.1.ScrollsDown o.call → p.1.SameGap p.2

theorem twoScreens_step {k k' : Kmalloc} {p q : Vga × Vga} {o : Twice} (h : (twoScreens k k').step p o = some q) :
    p.1.call k o.fresh o.call = .ok q.1 ∧ p.2.call k' o.fresh' o.call = .ok q.2 := by
  obtain ⟨s, hs, hrest⟩ := Option.bind_eq_some_iff.mp h
  obtain ⟨t, ht, hq⟩ := Option.bind_eq_some_iff.mp hrest
  obtain rfl := Option.some.inj hq
  obtain ⟨s', hs', rfl⟩ := exists_ok_of_map (f := id) (by rw [hs]; rfl)
  obtain ⟨t', ht', rfl⟩ := exists_ok_of_map (f := id) (by rw [ht]; rfl)
  exact ⟨hs', ht'⟩

/-- **What the screens of two runs depend on.** Two runs of any calls from the same screen on, before
`vga_dynamic_init`, that differ in what the buffers of the lines hold when they are handed out, show identical
screens after each call exactly if, whenever a call scrolls down from `line_number` 0, the columns 65 to 69 of the
second line are the same in both. -/
theorem same_screens_iff (k k' : Kmalloc) {s : Vga} (hx : s.x < vgaWidth) (hy : s.y < vgaHeight)
    (hempty : s.lines.used = 0) {os : List Twice} {q : Vga × Vga} (h : (twoScreens k k').run (s, s) os = some q) :
    (twoScreens k k').Each (SameAfter k k') (s, s) os ↔ (twoScreens k k').Each GapSame (s, s) os := by
  have hsound : s.Sound := ⟨hx, hy, by rw [ArrayT.toList, hempty]; exact List.nodup_nil⟩
  have hagree : s.Agree s := ⟨rfl, rfl, rfl, rfl, rfl, fun _ _ _ _ _ => rfl⟩
  refine (twoScreens k k').each_congr (I := fun p => p.1.Agree p.2 ∧ p.1.Sound ∧ p.2.Sound) ?_ ?_
    ⟨hagree, hsound, hsound⟩ h
  · rintro p o r ⟨hp, hs, ht⟩ hstep
    obtain ⟨hc, hc'⟩ := twoScreens_step hstep
    rw [GapSame, ← (hp.call hs ht hc hc').1, SameAfter]
    refine ⟨fun hall => hall r hstep, fun hsame r' hstep' => ?_⟩
    obtain rfl : r = r' := Option.some.inj (hstep.symm.trans hstep')
    exact hsame
  · rintro p o r ⟨hp, hs, ht⟩ hstep hgap
    obtain ⟨hc, hc'⟩ := twoScreens_step hstep
    obtain ⟨hiff, hnext⟩ := hp.call hs ht hc hc'
    exact ⟨hnext (hiff.mpr hgap), hs.call hc, ht.call hc'⟩

/-- The screen after `vga_init`. -/
def blankVga : Vga := { sampleVga with buf := fun _ => 0x0720, lines := ⟨0, 0, fun _ => NULL⟩ }

/-- Printing and scrolling, with buffers that are the same in the five columns only. -/
def sampleTwice : List Twice :=
  [.init, .putc 65, .scroll .down].map fun c =>
    ⟨c, fun _ j => if 65 ≤ j ∧ j < 70 then 7 else 0, fun _ j => if 65 ≤ j ∧ j < 70 then 7 else 1⟩

theorem same_screens_iff_sample :
    ∃ q, (twoScreens sampleKmalloc sampleKmalloc).run (blankVga, blankVga) sampleTwice = some q ∧
    ((twoScreens sampleKmalloc sampleKmalloc).Each (SameAfter sampleKmalloc sampleKmalloc)
      (blankVga, blankVga) sampleTwice ↔
      (twoScreens sampleKmalloc sampleKmalloc).Each GapSame (blankVga, blankVga) sampleTwice) := by
  have hrun : ((twoScreens sampleKmalloc sampleKmalloc).run (blankVga, blankVga) sampleTwice).isSome := by
    decide +kernel
  obtain ⟨q, hq⟩ := Option.isSome_iff_exists.mp hrun
  exact ⟨q, hq, same_screens_iff sampleKmalloc sampleKmalloc (by decide) (by decide) rfl hq⟩

/-- `vga_dynamic_init` and `vga_scroll_down`, with other buffers. -/
def otherBuffers : List Twice := [.init, .scroll .down].map fun c => ⟨c, fun _ _ => 0, fun _ _ => 1⟩

/-- What is in a buffer when it is handed out is shown in the first row. -/
theorem screens_differ : ∃ q, (twoScreens sampleKmalloc sampleKmalloc).run (blankVga, blankVga) otherBuffers = some q ∧
    q.1.cell 0 65 = 0 ∧ q.2.cell 0 65 = 1 ∧
    ¬ (twoScreens sampleKmalloc sampleKmalloc).Each (SameAfter sampleKmalloc sampleKmalloc)
      (blankVga, blankVga) otherBuffers := by
  have hrun : ((twoScreens sampleKmalloc sampleKmalloc).run (blankVga, blankVga) otherBuffers).map
      (fun q => (q.1.cell 0 65, q.2.cell 0 65)) = some (0, 1) := by decide +kernel
  obtain ⟨q, hq, hcells⟩ := Option.map_eq_some_iff.mp hrun
  obtain ⟨h0, h1⟩ := Prod.mk.inj hcells
  refine ⟨q, hq, h0, h1, fun heach => ?_⟩
  obtain ⟨p, hinit, hrest⟩ := (twoScreens sampleKmalloc sampleKmalloc).run_cons.mp hq
  obtain ⟨r, hdown, hend⟩ := (twoScreens sampleKmalloc sampleKmalloc).run_cons.mp hrest
  obtain rfl := Option.some.inj hend
  have hsame := (heach.2 p hinit).1 r hdown 0 (by decide) 65 (by decide)
  rw [h0, h1] at hsame
  exact absurd hsame (by decide)

end MoltarOS.Drivers
