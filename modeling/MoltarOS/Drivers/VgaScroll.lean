import MoltarOS.Drivers.VgaRows

/-!
# Scrolling

What is on the screen and in the saved lines makes up one text: a line that the screen
shows is read from the screen, up to the reserved part of its row, and from memory otherwise;
below the saved lines the text is blank. Scrolling moves the window and leaves the text.

## What is proved

* `scroll_refines` — `vga_scroll_up` and `vga_scroll_down` move a window over a text
  (`Scrollback`), and change no reserved cell.
* `scroll_path_independent` — so the screen depends on `line_number` alone, not on how it was
  reached.
-/

namespace MoltarOS.Drivers

open MoltarOS.Lib MoltarOS.Ds

/-! ### A window over a text -/

/-- A text, and the line that is shown first. -/
structure Scrollback (α : Type*) where
  /-- The cells of each line. -/
  text : ℕ → α
  /-- The first line of the window. -/
  top : ℕ

/-- The keys that scroll. -/
inductive Move where
  /-- `vga_scroll_up`. -/
  | up
  /-- `vga_scroll_down`. -/
  | down

namespace Scrollback

variable {α : Type*}

/-- Move the window by one line, and not above the first. -/
def move (v : Scrollback α) : Move → Scrollback α
  | .up => { v with top := v.top - 1 }
  | .down => { v with top := v.top + 1 }

theorem foldl_text (v : Scrollback α) (path : List Move) : (path.foldl move v).text = v.text := by
  induction path generalizing v with
  | nil => rfl
  | cons m path ih =>
    rw [List.foldl_cons, ih]
    cases m <;> rfl

end Scrollback

namespace Vga

variable {s t : Vga} {k : Kmalloc} {text : ℕ → Fin vgaWidth → UInt16}

/-! ### The text -/

/-- The cell of the text, at a line and column. -/
def document (s : Vga) (n : ℕ) (j : Fin vgaWidth) : UInt16 :=
  if s.lineNumber ≤ n ∧ n < s.lineNumber + vgaHeight ∧ j < rowEnd (n - s.lineNumber) then
    s.buf ((n - s.lineNumber) * vgaWidth + j)
  else if n < s.lines.used then s.mem (s.lines.data n) j
  else s.colorChar 32

/-- What the driver shows, and of what. -/
def scrollback (s : Vga) : Scrollback (Fin vgaWidth → UInt16) := ⟨s.document, s.lineNumber⟩

/-- The saved lines hold all of the text. -/
structure Filed (s : Vga) (text : ℕ → Fin vgaWidth → UInt16) : Prop where
  /-- The lines that are there. -/
  line : ∀ n < s.lines.used, ∀ j : Fin vgaWidth, s.mem (s.lines.data n) j = text n j
  /-- Below them the text is blank. -/
  blank : ∀ n, s.lines.used ≤ n → ∀ j : Fin vgaWidth, s.colorChar 32 = text n j

/-- A cell of the buffer that no line is drawn to. -/
def Strip (c : ℕ) : Prop := ¬ (c / 80 < vgaHeight ∧ c % 80 < rowEnd (c / 80))

/-- On the screen. -/
theorem document_row {i : ℕ} {j : Fin vgaWidth} (hi : i < vgaHeight) (hj : j < rowEnd i) :
    s.document (s.lineNumber + i) j = s.buf (i * vgaWidth + j) := by
  rw [document, Nat.add_sub_cancel_left, if_pos ⟨Nat.le_add_right _ _, Nat.add_lt_add_left hi _, hj⟩]

/-- In memory. -/
theorem document_line {n : ℕ} {j : Fin vgaWidth} (hn : n < s.lines.used)
    (hrow : ∀ i < vgaHeight, n = s.lineNumber + i → rowEnd i ≤ j) : s.document n j = s.mem (s.lines.data n) j := by
  rw [document, if_neg, if_pos hn]
  rintro ⟨hle, hlt, hj⟩
  exact Nat.not_le.mpr hj (hrow _ (by omega) (by omega))

theorem document_blank (h : s.lineNumber + vgaHeight ≤ s.lines.used) {n : ℕ} {j : Fin vgaWidth}
    (hn : s.lines.used ≤ n) :
    s.document n j = s.colorChar 32 := by
  rw [document, if_neg (by omega), if_neg (by omega)]

/-- Once the screen is saved, all of the text is in the lines. -/
theorem saveBuffer_filed (h : s.Window) :
    ∃ mem, s.saveBuffer = .ok (s.withMem mem) ∧ (s.withMem mem).Filed s.document := by
  obtain ⟨mem, hsave, hs⟩ := saveBuffer_spec h
  refine ⟨mem, hsave, fun n hn j => ?_, fun n hn j => (document_blank h.rows hn).symm⟩
  change n < s.lines.used at hn
  change mem (s.lines.data n) j = _
  by_cases hwindow : ∃ i < vgaHeight, n = s.lineNumber + i
  · obtain ⟨i, hi, rfl⟩ := hwindow
    have hline := hs.line i hi j
    by_cases hj : j < rowEnd i
    · rw [if_pos ⟨hi, hj⟩] at hline
      rw [document_row hi hj]
      exact hline
    · rw [if_neg fun he => hj he.2] at hline
      rw [document_line hn fun r _ he => by
        obtain rfl : i = r := Nat.add_left_cancel he
        exact Nat.not_lt.mp hj]
      exact hline
  · have hne : ∀ i < vgaHeight, s.lines.data n ≠ s.rowLine i := fun i hi he =>
      hwindow ⟨i, hi, data_injective h.distinct hn (by have hrows := h.rows; omega) he⟩
    rw [hs.other _ hne, document_line hn fun i hi he => absurd ⟨i, hi, he⟩ hwindow]

/-- A new line is blank, as the text was there. -/
theorem room_filed (hf : s.Filed text) (h : s.Window) :
    ∃ mem lines, s.room k = .ok { s with mem := mem, lines := lines } ∧ s.lineNumber + 1 + vgaHeight ≤ lines.used ∧
      lines.toList.Nodup ∧ Filed { s with mem := mem, lines := lines } text := by
  have hrows := h.rows
  by_cases hfull : s.lines.used ≤ s.lineNumber + vgaHeight
  · obtain ⟨line, mem, hfresh, hnew, hblank, hother⟩ := newLine_spec (s := s) k
    refine ⟨mem, arrayAdd k.slots s.lines line, (if_pos hfull).trans hnew, ?_, nodup_arrayAdd h.distinct hfresh,
      fun n hn j => ?_, fun n hn j => ?_⟩
    · rw [arrayAdd_used]
      omega
    · change n < (arrayAdd k.slots s.lines line).used at hn
      change mem ((arrayAdd k.slots s.lines line).data n) j = _
      rw [arrayAdd_used] at hn
      rcases Nat.lt_succ_iff_lt_or_eq.mp hn with hn | rfl
      · rw [arrayAdd_data hn, hother _ fun he => hfresh (he ▸ data_mem hn)]
        exact hf.line n hn j
      · rw [arrayAdd_data_used, hblank j j.isLt]
        exact hf.blank _ le_rfl j
    · change (arrayAdd k.slots s.lines line).used ≤ n at hn
      rw [arrayAdd_used] at hn
      exact hf.blank n (by omega) j
  · exact ⟨s.mem, s.lines, if_neg hfull, by omega, h.distinct, hf⟩

/-- What is drawn is the text. -/
theorem drawBuffer_document (hf : s.Filed text) (h : s.lineNumber + vgaHeight ≤ s.lines.used) :
    ∃ buf, s.drawBuffer = .ok (s.withBuf buf) ∧ (s.withBuf buf).document = text ∧ ∀ c, Strip c → buf c = s.buf c := by
  obtain ⟨buf, hbuf⟩ : ∃ buf, buf = painted s.buf rowEnd (fun i => s.mem (s.rowLine i)) vgaHeight := ⟨_, rfl⟩
  have hrows : (s.withBuf buf).lineNumber + vgaHeight ≤ (s.withBuf buf).lines.used := h
  refine ⟨buf, hbuf ▸ drawBuffer_spec h, ?_, fun c hc => hbuf ▸ if_neg hc⟩
  funext n j
  by_cases hwindow : ∃ i < vgaHeight, n = s.lineNumber + i ∧ j < rowEnd i
  · obtain ⟨i, hi, rfl, hj⟩ := hwindow
    have hrow := @document_row (s.withBuf buf) i j hi hj
    have hcell := painted_cell s.buf (fun i => s.mem (s.rowLine i)) hi j.isLt hj
    rw [← hbuf] at hcell
    exact (hrow.trans hcell).trans (hf.line _ (by omega) j)
  · by_cases hn : n < s.lines.used
    · rw [← hf.line n hn j]
      exact document_line hn fun i hi he => Nat.not_lt.mp fun hj => hwindow ⟨i, hi, he, hj⟩
    · rw [← hf.blank n (Nat.not_lt.mp hn) j]
      exact document_blank hrows (Nat.not_lt.mp hn)

/-! ### Moves -/

/-- `t` is `s` after scrolling to line `n`. -/
structure Scrolled (s t : Vga) (n : ℕ) : Prop where
  /-- The window is there, -/
  lineNumber : t.lineNumber = n
  /-- and shows lines. -/
  window : t.Window
  /-- The text is the same. -/
  document : t.document = s.document
  /-- The strips are the same. -/
  strip : ∀ c, Strip c → t.buf c = s.buf c
  /-- So is the cursor. -/
  x : t.x = s.x
  /-- So is the cursor. -/
  y : t.y = s.y

theorem drawBuffer_scrolled {u : Vga} (hf : u.Filed s.document) (hw : u.Window) (hbuf : u.buf = s.buf) (hx : u.x = s.x)
    (hy : u.y = s.y) : ∃ t, u.drawBuffer = .ok t ∧ s.Scrolled t u.lineNumber := by
  obtain ⟨buf, hdraw, hdoc, hstrip⟩ := drawBuffer_document hf hw.rows
  exact ⟨_, hdraw, rfl, ⟨hw.rows, hw.distinct⟩, hdoc, fun c hc => (hstrip c hc).trans (congrFun hbuf c), hx, hy⟩

theorem vgaScrollDown_spec (h : s.Window) : ∃ t, s.vgaScrollDown k = .ok t ∧ s.Scrolled t (s.lineNumber + 1) := by
  obtain ⟨mem, hsave, hf⟩ := saveBuffer_filed h
  obtain ⟨mem', lines, hroom, hrows, hd, hf'⟩ := room_filed (k := k) hf ⟨h.rows, h.distinct⟩
  have hdraw := @drawBuffer_scrolled s
    { s.withMem mem with mem := mem', lines := lines, lineNumber := s.lineNumber + 1 } ⟨hf'.line, hf'.blank⟩ ⟨hrows, hd⟩
    rfl rfl rfl
  rw [vgaScrollDown, hsave, ok_bind, hroom, ok_bind]
  exact hdraw

theorem vgaScrollUp_spec (h : s.Window) : ∃ t, s.vgaScrollUp = .ok t ∧ s.Scrolled t (s.lineNumber - 1) := by
  by_cases hzero : s.lineNumber = 0
  · refine ⟨s, if_pos hzero, ?_, h, rfl, fun _ _ => rfl, rfl, rfl⟩
    rw [hzero]
  · obtain ⟨mem, hsave, hf⟩ := saveBuffer_filed h
    have hrows : s.lineNumber - 1 + vgaHeight ≤ s.lines.used := by
      have hrows := h.rows
      omega
    have hdraw := @drawBuffer_scrolled s { s.withMem mem with lineNumber := s.lineNumber - 1 }
      ⟨hf.line, hf.blank⟩ ⟨hrows, h.distinct⟩ rfl rfl rfl
    rw [vgaScrollUp, if_neg hzero, hsave, ok_bind]
    exact hdraw

/-! ### Paths -/

/-- One key. -/
def scroll (k : Kmalloc) (s : Vga) : Move → Except Fault Vga
  | .up => s.vgaScrollUp
  | .down => s.vgaScrollDown k

/-- Many keys, with nothing printed in between. -/
def scrollPath (k : Kmalloc) (s : Vga) (path : List Move) : Except Fault Vga := path.foldlM (scroll k) s

/-- The cell in a row and column of the screen. -/
def cell (s : Vga) (i j : ℕ) : UInt16 := s.buf (i * vgaWidth + j)

/-- The screens are identical, cell by cell. -/
def SameScreen (s t : Vga) : Prop := ∀ i < vgaHeight, ∀ j < vgaWidth, s.cell i j = t.cell i j

theorem Scrolled.refines {m : Move} {n : ℕ} (h : s.Scrolled t n) (hn : n = (s.scrollback.move m).top) :
    t.scrollback = s.scrollback.move m := by
  rw [scrollback, h.document, h.lineNumber, hn]
  cases m <;> rfl

/-- **Scrolling moves a window over a text**. -/
theorem scroll_refines (k : Kmalloc) (h : s.Window) (m : Move) :
    ∃ t, s.scroll k m = .ok t ∧ t.Window ∧ t.scrollback = s.scrollback.move m ∧ ∀ c, Strip c → t.buf c = s.buf c := by
  cases m with
  | up =>
    obtain ⟨t, ht, hs⟩ := vgaScrollUp_spec h
    exact ⟨t, ht, hs.window, hs.refines rfl, hs.strip⟩
  | down =>
    obtain ⟨t, ht, hs⟩ := vgaScrollDown_spec (k := k) h
    exact ⟨t, ht, hs.window, hs.refines rfl, hs.strip⟩

theorem scrollPath_refines (k : Kmalloc) (h : s.Window) (path : List Move) :
    ∃ t, s.scrollPath k path = .ok t ∧ t.Window ∧ t.scrollback = path.foldl Scrollback.move s.scrollback ∧
      ∀ c, Strip c → t.buf c = s.buf c := by
  induction path generalizing s with
  | nil => exact ⟨s, rfl, h, rfl, fun _ _ => rfl⟩
  | cons m path ih =>
    obtain ⟨u, hu, hwindow, hscrollback, hstrip⟩ := scroll_refines k h m
    obtain ⟨t, ht, hwindow', hscrollback', hstrip'⟩ := ih hwindow
    refine ⟨t, ?_, hwindow', ?_, fun c hc => (hstrip' c hc).trans (hstrip c hc)⟩
    · rw [scrollPath, List.foldlM_cons, hu]
      exact ht
    · rw [hscrollback', hscrollback, List.foldl_cons]

theorem strip_of_rowEnd {i j : ℕ} (hj : j < vgaWidth) (h : rowEnd i ≤ j) : Strip (i * vgaWidth + j) := by
  simp only [vgaWidth] at *
  have hdiv : (i * 80 + j) / 80 = i := by omega
  have hmod : (i * 80 + j) % 80 = j := by omega
  rw [Strip, hdiv, hmod]
  omega

/-- The text, the window and the strips make up the screen. -/
theorem sameScreen_of_scrollback (h : s.scrollback = t.scrollback) (hstrip : ∀ c, Strip c → s.buf c = t.buf c) :
    s.SameScreen t := by
  obtain ⟨hdoc, hline⟩ := Scrollback.mk.inj h
  intro i hi j hj
  by_cases hend : j < rowEnd i
  · have hs := @document_row s i ⟨j, hj⟩ hi hend
    have ht := @document_row t i ⟨j, hj⟩ hi hend
    rw [hdoc, hline] at hs
    exact hs.symm.trans ht
  · exact hstrip _ (strip_of_rowEnd hj (Nat.not_lt.mp hend))

/-- Scrolling leaves the text. -/
theorem scrollPath_document (k : Kmalloc) (h : s.Window) (path : List Move) :
    ∃ t, s.scrollPath k path = .ok t ∧ t.document = s.document ∧ ∀ c, Strip c → t.buf c = s.buf c := by
  obtain ⟨t, ht, -, hback, hstrip⟩ := scrollPath_refines k h path
  refine ⟨t, ht, ?_, hstrip⟩
  have htext := Scrollback.foldl_text s.scrollback path
  rwa [← hback] at htext

/-- A path that leads back to where the window was restores the screen. -/
theorem scrollPath_restores (k : Kmalloc) (h : s.Window) {path : List Move}
    (hpath : path.foldl Scrollback.move s.scrollback = s.scrollback) :
    ∃ t, s.scrollPath k path = .ok t ∧ t.SameScreen s := by
  obtain ⟨t, ht, -, hback, hstrip⟩ := scrollPath_refines k h path
  exact ⟨t, ht, sameScreen_of_scrollback (hback.trans hpath) hstrip⟩

end Vga

open Vga in
/-- **The screen depends on `line_number` alone**: two ways to scroll that end at the same line end with
identical screens, and leave the strips of the first two rows; going down and up again, or up and
down again, restores the screen. -/
theorem scroll_path_independent {s : Vga} (h : s.Window) (k₁ k₂ : Kmalloc) (p₁ p₂ : List Move) :
    (∃ s₁ s₂, s.scrollPath k₁ p₁ = .ok s₁ ∧ s.scrollPath k₂ p₂ = .ok s₂ ∧
      (s₁.lineNumber = s₂.lineNumber → s₁.SameScreen s₂) ∧
      ∀ i j, i = 0 ∧ 70 ≤ j ∧ j < 80 ∨ i = 1 ∧ 65 ≤ j ∧ j < 80 → s₁.cell i j = s.cell i j) ∧
    (∃ t, s.scrollPath k₁ [.down, .up] = .ok t ∧ t.SameScreen s) ∧
    (0 < s.lineNumber → ∃ t, s.scrollPath k₁ [.up, .down] = .ok t ∧ t.SameScreen s) := by
  refine ⟨?_, scrollPath_restores k₁ h rfl, fun hpos => scrollPath_restores k₁ h ?_⟩
  · obtain ⟨s₁, hs₁, hdoc₁, hstrip₁⟩ := scrollPath_document k₁ h p₁
    obtain ⟨s₂, hs₂, hdoc₂, hstrip₂⟩ := scrollPath_document k₂ h p₂
    refine ⟨s₁, s₂, hs₁, hs₂, fun hline => ?_, fun i j hij => hstrip₁ _ ?_⟩
    · refine sameScreen_of_scrollback ?_ fun c hc => (hstrip₁ c hc).trans (hstrip₂ c hc).symm
      rw [scrollback, scrollback, hdoc₁, hdoc₂, hline]
    · rcases hij with ⟨rfl, hj, hj'⟩ | ⟨rfl, hj, hj'⟩
      · exact strip_of_rowEnd hj' hj
      · exact strip_of_rowEnd hj' hj
  · exact congrArg (Scrollback.mk s.document) (Nat.sub_add_cancel hpos)

/-- Memory beyond all lines there are. -/
def sampleKmalloc : Kmalloc where
  line l := l.foldr max 0 + 1
  slots _ _ := NULL
  fresh l h := by
    have hle : ∀ l : List LineRef, ∀ p ∈ l, p ≤ l.foldr max 0 := fun l p hp => by
      induction l with
      | nil => cases hp
      | cons q l ih =>
        rcases List.mem_cons.mp hp with rfl | hp
        · exact le_max_left _ _
        · exact (ih hp).trans (le_max_right _ _)
    exact absurd (hle l _ h) (Nat.not_succ_le_self _)

/-- A screen with something in each cell, over empty lines. -/
def sampleVga : Vga := ⟨0, 0, 7, UInt16.ofNat, 0, ⟨25, 25, (· + 1)⟩, 0, fun _ _ => 0⟩

theorem scroll_path_independent_sample :
    ∃ t, sampleVga.scrollPath sampleKmalloc [.down, .up] = .ok t ∧ t.SameScreen sampleVga := by
  have hwindow : sampleVga.Window := ⟨by decide, by decide⟩
  exact (scroll_path_independent hwindow sampleKmalloc sampleKmalloc [.down, .up] []).2.1

end MoltarOS.Drivers
