import MoltarOS.Drivers.Vga

/-!
# Rows

What the loops of the driver do to the buffer and to the saved lines, cell by cell.

## What is proved

* `drawBuffer_spec` — each row gets the cells of its line, up to its reserved part.
* `saveBuffer_spec` — each line gets the cells of its row, up to the reserved part, and no
  other memory changes.
-/

namespace MoltarOS.Drivers

open MoltarOS.Lib MoltarOS.Ds

/-! ### Reserved cells -/

/-- Where the reserved part of a row begins. -/
def rowEnd (i : ℕ) : ℕ := if i = 0 then 70 else if i = 1 then 65 else 80

theorem rowEnd_le (i : ℕ) : rowEnd i ≤ vgaWidth := by
  simp only [rowEnd, vgaWidth]
  split_ifs <;> omega

theorem reserved_eq_false {i j : ℕ} (h : j < rowEnd i) : reserved i j = false := by
  simp only [rowEnd] at h
  refine decide_eq_false ?_
  simp only [vgaWidth]
  split_ifs at h <;> omega

theorem reserved_rowEnd {i : ℕ} (h : rowEnd i < vgaWidth) : reserved i (rowEnd i) = true := by
  simp only [rowEnd, vgaWidth] at h
  refine decide_eq_true ?_
  simp only [rowEnd, vgaWidth]
  split_ifs at h ⊢ <;> omega

/-- No position of the cursor is reserved: `vga_putc` passes the column for the row. -/
theorem reserved_cursor {x y : ℕ} (h : y < vgaHeight) : reserved x y = false := by
  simp only [vgaHeight] at h
  refine decide_eq_false ?_
  simp only [vgaWidth]
  omega

namespace Vga

variable {s : Vga}

/-- The screen shows lines that are there, and no two of them are the same memory. -/
structure Window (s : Vga) : Prop where
  /-- There is a line for each row. -/
  rows : s.lineNumber + vgaHeight ≤ s.lines.used
  /-- The lines are distinct. -/
  distinct : s.lines.toList.Nodup

/-- The line that a row shows. -/
def rowLine (s : Vga) (i : ℕ) : LineRef := s.lines.data (s.lineNumber + i)

/-- Another buffer. -/
def withBuf (s : Vga) (buf : ℕ → UInt16) : Vga := { s with buf := buf }

/-- Other memory. -/
def withMem (s : Vga) (mem : LineRef → ℕ → UInt16) : Vga := { s with mem := mem }

theorem line_eq {idx : ℕ} (h : idx < s.lines.used) : s.line idx = .ok (s.lines.data idx) := by
  rw [line, if_pos h, arrayGet_of_lt h, Option.getD_some]

theorem write_eq {index : ℕ} (cell : UInt16) (h : index < vgaHeight * vgaWidth) :
    s.write index cell = .ok (s.withBuf (Function.update s.buf index cell)) := if_pos h

/-! ### Writing to the buffer -/

/-- A row of the buffer is overwritten up to a column. -/
def paintedRow (buf : ℕ → UInt16) (i : ℕ) (v : ℕ → UInt16) (m : ℕ) : ℕ → UInt16 :=
  fun n => if n / 80 = i ∧ n % 80 < m then v (n % 80) else buf n

theorem paintedRow_zero (buf : ℕ → UInt16) (i : ℕ) (v : ℕ → UInt16) : paintedRow buf i v 0 = buf := by
  funext n
  simp [paintedRow]

theorem paintedRow_succ (buf : ℕ → UInt16) (i : ℕ) (v : ℕ → UInt16) {j : ℕ} (hj : j < 80) :
    paintedRow buf i v (j + 1) = Function.update (paintedRow buf i v j) (i * 80 + j) (v j) := by
  funext n
  rw [Function.update_apply, paintedRow, paintedRow]
  by_cases hn : n = i * 80 + j
  · have hmod : n % 80 = j := by omega
    rw [if_pos hn, if_pos (by omega), hmod]
  · rw [if_neg hn]
    exact if_congr (by omega) rfl rfl

/-- The loop over the columns of a row. -/
theorem writeRow {v : Vga → ℕ → UInt16} (hv : ∀ s buf, v (withBuf s buf) = v s) {i m : ℕ} {stop : ℕ → Bool}
    (hi : i < vgaHeight) (hm : m ≤ vgaWidth) (hgo : ∀ j < m, stop j = false) (hend : m < vgaWidth → stop m = true) :
    forLoop vgaWidth stop (fun j s => s.write (i * vgaWidth + j) (v s j)) s =
      .ok (s.withBuf (paintedRow s.buf i (v s) m)) := by
  have hbody : ∀ j < m, ∀ t, t = s.withBuf (paintedRow s.buf i (v s) j) →
      ∃ u, t.write (i * vgaWidth + j) (v t j) = .ok u ∧ u = s.withBuf (paintedRow s.buf i (v s) (j + 1)) := by
    rintro j hj t rfl
    refine ⟨_, write_eq _ ?_, ?_⟩
    · simp only [vgaWidth, vgaHeight] at *
      omega
    · rw [paintedRow_succ _ _ _ (lt_of_lt_of_le hj hm), hv]
      rfl
  obtain ⟨t, ht, rfl⟩ := forLoop_spec hm hgo hend hbody (s := s) (by rw [paintedRow_zero]; rfl)
  exact ht

/-- The first rows of the buffer are overwritten, each up to some column. -/
def painted (buf : ℕ → UInt16) (ends : ℕ → ℕ) (v : ℕ → ℕ → UInt16) (rows : ℕ) : ℕ → UInt16 :=
  fun n => if n / 80 < rows ∧ n % 80 < ends (n / 80) then v (n / 80) (n % 80) else buf n

theorem painted_zero (buf : ℕ → UInt16) (ends : ℕ → ℕ) (v : ℕ → ℕ → UInt16) : painted buf ends v 0 = buf := by
  funext n
  simp [painted]

theorem painted_succ (buf : ℕ → UInt16) (ends : ℕ → ℕ) (v : ℕ → ℕ → UInt16) (i : ℕ) :
    painted buf ends v (i + 1) = paintedRow (painted buf ends v i) i (v i) (ends i) := by
  funext n
  simp only [painted, paintedRow]
  by_cases hi : n / 80 = i
  · rw [hi]
    simp
  · simp only [hi, false_and, if_false]
    exact if_congr (by omega) rfl rfl

theorem painted_cell (buf : ℕ → UInt16) {ends : ℕ → ℕ} (v : ℕ → ℕ → UInt16) {rows i j : ℕ} (hi : i < rows)
    (hj : j < vgaWidth) (hend : j < ends i) : painted buf ends v rows (i * vgaWidth + j) = v i j := by
  simp only [vgaWidth] at *
  have hdiv : (i * 80 + j) / 80 = i := by omega
  have hmod : (i * 80 + j) % 80 = j := by omega
  rw [painted, hdiv, hmod, if_pos ⟨hi, hend⟩]

/-- The loop over the rows. -/
theorem paintRows {row : ℕ → Vga → Except Fault Vga} {ends : ℕ → ℕ} {v : ℕ → ℕ → UInt16}
    (hrow : ∀ i < vgaHeight, ∀ buf, row i (s.withBuf buf) = .ok (s.withBuf (paintedRow buf i (v i) (ends i)))) :
    forLoop vgaHeight never row s = .ok (s.withBuf (painted s.buf ends v vgaHeight)) := by
  have hbody : ∀ i < vgaHeight, ∀ t, t = s.withBuf (painted s.buf ends v i) →
      ∃ u, row i t = .ok u ∧ u = s.withBuf (painted s.buf ends v (i + 1)) := by
    rintro i hi t rfl
    exact ⟨_, hrow i hi _, by rw [painted_succ]⟩
  obtain ⟨t, ht, rfl⟩ := forLoop_never hbody (s := s) (by rw [painted_zero]; rfl)
  exact ht

theorem clearRow_eq {i : ℕ} (hi : i < vgaHeight) :
    s.clearRow i = .ok (s.withBuf (paintedRow s.buf i (fun _ => s.colorChar 32) vgaWidth)) :=
  writeRow (v := fun s _ => s.colorChar 32) (fun _ _ => rfl) hi le_rfl (fun _ _ => rfl) fun h =>
    absurd h (Nat.lt_irrefl _)

/-- The screen is blank after `vga_init`. -/
theorem vgaInit_spec : ∃ t, s.vgaInit = .ok t ∧
    t = { s with x := 0, y := 0, color := makeColor COLOR_LIGHT_GREY COLOR_BLACK, buf := t.buf } := by
  have hrow : ∀ (u : Vga), ∀ i < vgaHeight, ∀ buf, (u.withBuf buf).clearRow i =
      .ok (u.withBuf (paintedRow buf i (fun _ => u.colorChar 32) vgaWidth)) := fun u i hi buf => clearRow_eq hi
  exact ⟨_, paintRows (hrow _), rfl⟩

theorem drawRow_eq {i : ℕ} (hi : i < vgaHeight) (h : s.lineNumber + vgaHeight ≤ s.lines.used) :
    s.drawRow i = .ok (s.withBuf (paintedRow s.buf i (s.mem (s.rowLine i)) (rowEnd i))) := by
  have hline : s.lineNumber + i < s.lines.used := by omega
  rw [drawRow, line_eq hline]
  exact writeRow (v := fun t => t.mem (s.rowLine i)) (fun _ _ => rfl) hi (rowEnd_le i)
    (fun j hj => reserved_eq_false hj) reserved_rowEnd

/-- **The lines are drawn**, each up to the reserved part of its row. -/
theorem drawBuffer_spec (h : s.lineNumber + vgaHeight ≤ s.lines.used) :
    s.drawBuffer = .ok (s.withBuf (painted s.buf rowEnd (fun i => s.mem (s.rowLine i)) vgaHeight)) :=
  paintRows fun _ hi _ => drawRow_eq hi h

/-! ### Saving -/

/-- A line is overwritten up to a column. -/
def savedLine (mem : LineRef → ℕ → UInt16) (line : LineRef) (v : ℕ → UInt16) (m : ℕ) : LineRef → ℕ → UInt16 :=
  Function.update mem line fun j => if j < m then v j else mem line j

theorem savedLine_zero (mem : LineRef → ℕ → UInt16) (line : LineRef) (v : ℕ → UInt16) :
    savedLine mem line v 0 = mem := by
  simp [savedLine]

theorem savedLine_succ (mem : LineRef → ℕ → UInt16) (line : LineRef) (v : ℕ → UInt16) (j : ℕ) :
    savedLine mem line v (j + 1) =
      Function.update (savedLine mem line v j) line (Function.update (savedLine mem line v j line) j (v j)) := by
  rw [savedLine, savedLine, Function.update_idem, Function.update_self]
  congr 1
  funext n
  rw [Function.update_apply]
  by_cases hn : n = j
  · rw [if_pos hn, if_pos (by omega), hn]
  · rw [if_neg hn]
    exact if_congr (by omega) rfl rfl

/-- The loop over the cells of a line. -/
theorem storeRow {v : Vga → ℕ → UInt16} (hv : ∀ s mem, v (withMem s mem) = v s) (line : LineRef) {m : ℕ}
    {stop : ℕ → Bool} (hm : m ≤ vgaWidth) (hgo : ∀ j < m, stop j = false) (hend : m < vgaWidth → stop m = true) :
    forLoop vgaWidth stop (fun j s => .ok (s.store line j (v s j))) s =
      (.ok (s.withMem (savedLine s.mem line (v s) m)) : Except Fault Vga) := by
  have hbody : ∀ j < m, ∀ t, t = s.withMem (savedLine s.mem line (v s) j) →
      ∃ u, (.ok (t.store line j (v t j)) : Except Fault Vga) = .ok u ∧
      u = s.withMem (savedLine s.mem line (v s) (j + 1)) := by
    rintro j - t rfl
    exact ⟨_, rfl, by rw [savedLine_succ, hv]; rfl⟩
  obtain ⟨t, ht, rfl⟩ := forLoop_spec hm hgo hend hbody (s := s) (by rw [savedLine_zero]; rfl)
  exact ht

theorem saveRow_eq {i : ℕ} (h : s.lineNumber + i < s.lines.used) :
    s.saveRow i = .ok (s.withMem (savedLine s.mem (s.rowLine i) (fun j => s.buf (i * vgaWidth + j)) (rowEnd i))) := by
  rw [saveRow, line_eq h]
  exact storeRow (v := fun s j => s.buf (i * vgaWidth + j)) (fun _ _ => rfl) _ (rowEnd_le i)
    (fun j hj => reserved_eq_false hj) reserved_rowEnd

/-- The first `n` rows are saved, each up to its reserved part, and other memory is as it was. -/
structure SavedRows (s : Vga) (n : ℕ) (mem : LineRef → ℕ → UInt16) : Prop where
  /-- What the lines on the screen hold. -/
  line : ∀ i < vgaHeight, ∀ j,
    mem (s.rowLine i) j = if i < n ∧ j < rowEnd i then s.buf (i * vgaWidth + j) else s.mem (s.rowLine i) j
  /-- What is not on the screen. -/
  other : ∀ p, (∀ i < vgaHeight, p ≠ s.rowLine i) → mem p = s.mem p

theorem savedRows_zero (s : Vga) : s.SavedRows 0 s.mem := ⟨by simp, fun _ _ => rfl⟩

theorem Window.rowLine_injective (h : s.Window) {i r : ℕ} (hi : i < vgaHeight) (hr : r < vgaHeight)
    (he : s.rowLine i = s.rowLine r) : i = r := by
  have hrows := h.rows
  have heq := data_injective h.distinct (by omega) (by omega) he
  omega

theorem SavedRows.succ {mem : LineRef → ℕ → UInt16} {n : ℕ} (hs : s.SavedRows n mem) (h : s.Window)
    (hn : n < vgaHeight) :
    s.SavedRows (n + 1) (savedLine mem (s.rowLine n) (fun j => s.buf (n * vgaWidth + j)) (rowEnd n)) := by
  refine ⟨fun i hi j => ?_, fun p hp => ?_⟩
  · rw [savedLine, Function.update_apply]
    by_cases hin : i = n
    · subst hin
      rw [if_pos rfl, hs.line i hi]
      simp
    · rw [if_neg fun he => hin (h.rowLine_injective hi hn he), hs.line i hi]
      exact if_congr (by omega) rfl rfl
  · rw [savedLine, Function.update_of_ne (hp n hn)]
    exact hs.other p hp

/-- **The rows are saved**, each up to its reserved part. -/
theorem saveBuffer_spec (h : s.Window) : ∃ mem, s.saveBuffer = .ok (s.withMem mem) ∧ s.SavedRows vgaHeight mem := by
  have hbody : ∀ i < vgaHeight, ∀ t, (∃ mem, t = s.withMem mem ∧ s.SavedRows i mem) →
      ∃ u, t.saveRow i = .ok u ∧ ∃ mem, u = s.withMem mem ∧ s.SavedRows (i + 1) mem := by
    rintro i hi t ⟨mem, rfl, hs⟩
    exact ⟨_, saveRow_eq (lt_of_lt_of_le (Nat.add_lt_add_left hi _) h.rows), _, rfl, hs.succ h hi⟩
  obtain ⟨t, ht, mem, rfl, hs⟩ := forLoop_never hbody (s := s) ⟨s.mem, rfl, s.savedRows_zero⟩
  exact ⟨mem, ht, hs⟩

/-! ### New lines -/

/-- A new line is blank, and the other lines are as they were. -/
theorem newLine_spec (k : Kmalloc) : ∃ line mem, line ∉ s.lines.toList ∧
    s.newLine k = .ok { s.withMem mem with lines := arrayAdd k.slots s.lines line } ∧
    (∀ j < vgaWidth, mem line j = s.colorChar 32) ∧ ∀ p, p ≠ line → mem p = s.mem p := by
  refine ⟨k.line s.lines.toList, savedLine s.mem (k.line s.lines.toList) (fun _ => s.colorChar 32) vgaWidth,
    k.fresh s.lines.toList, ?_, fun j hj => ?_, fun p hp => ?_⟩
  · have hloop : forLoop vgaWidth never (fun i s' => .ok (s'.store (k.line s.lines.toList) i (s'.colorChar 32))) s =
        (.ok (s.withMem (savedLine s.mem (k.line s.lines.toList) (fun _ => s.colorChar 32) vgaWidth)) :
          Except Fault Vga) :=
      storeRow (v := fun s _ => s.colorChar 32) (fun _ _ => rfl) _ le_rfl (fun _ _ => rfl)
        fun h => absurd h (Nat.lt_irrefl _)
    rw [newLine, hloop]
    rfl
  · rw [savedLine, Function.update_self, if_pos hj]
  · rw [savedLine, Function.update_of_ne hp]

/-- The lines after `vga_dynamic_init`. -/
theorem vgaDynamicInit_spec (k : Kmalloc) :
    ∃ lines, s.vgaDynamicInit k = .ok { s with lines := lines } ∧ lines.used = vgaHeight ∧ lines.toList.Nodup := by
  have hbody : ∀ i < vgaHeight, ∀ t, (∃ lines : ArrayT LineRef, t = { s with lines := lines } ∧ lines.used = i ∧
      lines.toList.Nodup) → ∃ u, (.ok (t.addLine k) : Except Fault Vga) = .ok u ∧
        ∃ lines : ArrayT LineRef, u = { s with lines := lines } ∧ lines.used = i + 1 ∧ lines.toList.Nodup := by
    rintro i - t ⟨lines, rfl, hused, hnodup⟩
    exact ⟨_, rfl, _, rfl, by rw [arrayAdd_used, hused], nodup_arrayAdd hnodup (k.fresh _)⟩
  obtain ⟨t, ht, lines, rfl, hused, hnodup⟩ :=
    forLoop_never hbody (s := { s with lines := arrayCreate k.slots vgaHeight })
    ⟨arrayCreate k.slots vgaHeight, rfl, rfl, List.nodup_nil⟩
  exact ⟨lines, ht, hused, hnodup⟩

end Vga

end MoltarOS.Drivers
