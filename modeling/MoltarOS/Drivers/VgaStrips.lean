import MoltarOS.Drivers.VgaPrint

/-!
# The status strips

`save_buffer` and `draw_buffer` stop at the strips of the first two rows. `vga_putc` should too, but it passes
the column for the row to `reserved`, and so never finds a position of the cursor reserved.

## What is proved

* `strips_kept_iff` — a text leaves the strips, whatever is on the screen, exactly if it begins below them, or has no
  newline and ends before the strip of its row.
-/

namespace MoltarOS.Drivers

open MoltarOS.Lib

namespace Vga

variable {s t : Vga} {k : Kmalloc} {n : ℕ}

/-- The strips are as they were: the last 10 columns of the first row, and the last 15 of the second. -/
def StripsKept (s t : Vga) : Prop :=
  ∀ i j, i = 0 ∧ 70 ≤ j ∧ j < 80 ∨ i = 1 ∧ 65 ≤ j ∧ j < 80 → t.cell i j = s.cell i j

/-- The cell of the buffer that the cursor is on. -/
def position (s : Vga) : ℕ := s.y * vgaWidth + s.x

/-- A text, character by character. -/
def putText (k : Kmalloc) (text : List UInt8) (s : Vga) : Except Fault Vga := text.foldlM (fun s c => vgaPutc k 1 c s) s

theorem putText_cons {c : UInt8} {text : List UInt8} {u : Vga} (h : vgaPutc k 1 c s = .ok u) :
    putText k (c :: text) s = putText k text u := by
  rw [putText, List.foldlM_cons, h]
  rfl

/-! ### Cells behind the cursor -/

/-- Cells in front of the cursor are not written. -/
theorem putBuf_of_lt (h : s.Inv) (c : UInt8) (hn : n < s.position) : s.putBuf c n = s.buf n := by
  have hx := h.x
  rw [position] at hn
  simp only [vgaWidth] at hx hn
  exact if_neg (by omega)

/-- The cells written are in front of the cursor, and so are those of the first two rows that were before. -/
theorem Printed.lt_position {c : UInt8} (hp : s.Printed c t) (h : s.Inv) (hn : n < s.y * vgaWidth + s.putEnd c)
    (hrows : n < 2 * vgaWidth) : n < t.position := by
  have hle := putEnd_le h c
  rw [position]
  by_cases hend : s.putEnd c < vgaWidth
  · obtain ⟨hx, hy, -⟩ := hp.of_lt hend
    rwa [hx, hy]
  · obtain ⟨hx, ⟨hlast, hy, -⟩ | ⟨hlast, hy, -⟩⟩ := hp.of_end h hend
    all_goals
      rw [hx, hy]
      simp only [vgaWidth, vgaHeight] at *
      omega

/-- **A strip cell that the cursor has passed** is never written again. -/
theorem putText_keeps (h : s.Inv) (text : List UInt8) (hn : n < s.position) (hrows : n < 2 * vgaWidth)
    (hstrip : Strip n) :
    ∃ t, putText k text s = .ok t ∧ t.buf n = s.buf n := by
  induction text generalizing s with
  | nil => exact ⟨s, rfl, rfl⟩
  | cons c text ih =>
    obtain ⟨u, hu, hp⟩ := vgaPutc_printed (k := k) h 0 c
    have hpassed : n < s.y * vgaWidth + s.putEnd c := hn.trans (Nat.add_lt_add_left (lt_putEnd h c) _)
    obtain ⟨t, ht, hsame⟩ := ih hp.inv (hp.lt_position h hpassed hrows)
    refine ⟨t, (putText_cons hu).trans ht, ?_⟩
    rw [hsame, hp.strip n hstrip, putBuf_of_lt h c hn]

/-! ### Texts that end before the strip -/

/-- Without a newline, a text that ends before the strip of its row writes to no strip. -/
theorem putText_short (h : s.Inv) {text : List UInt8} (hnl : 10 ∉ text) (hshort : s.x + text.length ≤ rowEnd s.y)
    (hstrip : Strip n) : ∃ t, putText k text s = .ok t ∧ t.buf n = s.buf n := by
  induction text generalizing s with
  | nil => exact ⟨s, rfl, rfl⟩
  | cons c text ih =>
    have hc : c ≠ 10 := fun hc => hnl (hc ▸ List.mem_cons_self)
    have hend : s.putEnd c = s.x + 1 := if_neg hc
    rw [List.length_cons] at hshort
    obtain ⟨u, hu, hp⟩ := vgaPutc_printed (k := k) h 0 c
    have hsame : u.buf n = s.buf n := by
      rw [hp.strip n hstrip, putBuf, hend, span, if_neg]
      rintro ⟨hrow, h1, h2⟩
      refine hstrip ⟨by rw [hrow]; exact h.y, ?_⟩
      rw [hrow]
      omega
    by_cases hlast : s.x + 1 < vgaWidth
    · obtain ⟨hx, hy, -⟩ := hp.of_lt (hend.trans_lt hlast)
      obtain ⟨t, ht, hsame'⟩ := ih hp.inv (fun hmem => hnl (List.mem_cons_of_mem c hmem)) (by rw [hx, hy]; omega)
      exact ⟨t, (putText_cons hu).trans ht, hsame'.trans hsame⟩
    · have hle := rowEnd_le s.y
      obtain rfl : text = [] := List.length_eq_zero_iff.mp (by omega)
      exact ⟨u, putText_cons hu, hsame⟩

/-! ### Texts that reach it -/

/-- The first cell of the strip of a row. -/
def stripCell (y : ℕ) : ℕ := y * vgaWidth + rowEnd y

theorem rowEnd_lt {y : ℕ} (hrow : y < 2) : rowEnd y < vgaWidth := by
  simp only [rowEnd, vgaWidth]
  split_ifs <;> omega

theorem strip_stripCell {y : ℕ} (hrow : y < 2) : Strip (stripCell y) := strip_of_rowEnd (rowEnd_lt hrow) le_rfl

/-- What a character leaves in it. -/
theorem putBuf_stripCell {c : UInt8} (hrow : s.y < 2) (hle : s.x ≤ rowEnd s.y) (hreached : rowEnd s.y < s.putEnd c) :
    s.putBuf c (stripCell s.y) = s.putCell c := by
  have hlt := rowEnd_lt hrow
  rw [putBuf, span, stripCell]
  simp only [vgaWidth] at *
  exact if_pos (by omega)

/-- Once it is written, the rest of the text leaves it. -/
theorem putText_reached (h : s.Inv) (hrow : s.y < 2) (hle : s.x ≤ rowEnd s.y) {c : UInt8}
    (hreached : rowEnd s.y < s.putEnd c) (text : List UInt8) :
    ∃ t, putText k (c :: text) s = .ok t ∧ t.buf (stripCell s.y) = s.putCell c := by
  have hstrip := strip_stripCell hrow
  obtain ⟨u, hu, hp⟩ := vgaPutc_printed (k := k) h 0 c
  have hrows : stripCell s.y < 2 * vgaWidth := by
    have hlt := rowEnd_lt hrow
    rw [stripCell]
    simp only [vgaWidth] at *
    omega
  have hpassed : stripCell s.y < u.position := hp.lt_position h (Nat.add_lt_add_left hreached _) hrows
  obtain ⟨t, ht, hsame⟩ := putText_keeps (k := k) hp.inv text hpassed hrows hstrip
  refine ⟨t, (putText_cons hu).trans ht, ?_⟩
  rw [hsame, hp.strip _ hstrip, putBuf_stripCell hrow hle hreached]

/-- **A text that reaches the strip of its row** leaves in its first cell the same, whatever was there before. -/
theorem putText_forgets {s' : Vga} (h : s.Inv) (h' : s'.Inv) (hx : s'.x = s.x) (hy : s'.y = s.y)
    (hcolor : s'.color = s.color)
    (hrow : s.y < 2) (hle : s.x ≤ rowEnd s.y) {text : List UInt8}
    (hreach : 10 ∈ text ∨ rowEnd s.y < s.x + text.length) :
    ∃ t t', putText k text s = .ok t ∧ putText k text s' = .ok t' ∧ t.buf (stripCell s.y) = t'.buf (stripCell s.y) := by
  induction text generalizing s s' with
  | nil =>
    rcases hreach with hmem | hlt
    · cases hmem
    · exact absurd hlt (Nat.not_lt.mpr hle)
  | cons c text ih =>
    have hend : s'.putEnd c = s.putEnd c := by rw [putEnd, putEnd, hx]
    have hcell : s'.putCell c = s.putCell c := by rw [putCell, putCell, colorChar_congr hcolor]
    by_cases hreached : rowEnd s.y < s.putEnd c
    · obtain ⟨t, ht, hbuf⟩ := putText_reached (k := k) h hrow hle hreached text
      obtain ⟨t', ht', hbuf'⟩ := putText_reached (k := k) h' (by rwa [hy]) (by rwa [hx, hy]) (by rwa [hy, hend]) text
      rw [hy, hcell] at hbuf'
      exact ⟨t, t', ht, ht', hbuf.trans hbuf'.symm⟩
    · have hc : c ≠ 10 := by
        rintro rfl
        exact hreached (rowEnd_lt hrow)
      have hnext : s.putEnd c = s.x + 1 := if_neg hc
      have hlt : s.putEnd c < vgaWidth := (Nat.not_lt.mp hreached).trans_lt (rowEnd_lt hrow)
      obtain ⟨u, hu, hp⟩ := vgaPutc_printed (k := k) h 0 c
      obtain ⟨u', hu', hp'⟩ := vgaPutc_printed (k := k) h' 0 c
      obtain ⟨hux, huy, -⟩ := hp.of_lt hlt
      obtain ⟨hux', huy', -⟩ := hp'.of_lt (hend.trans_lt hlt)
      have hrest : 10 ∈ text ∨ rowEnd u.y < u.x + text.length := by
        rw [hux, huy]
        rw [List.mem_cons, List.length_cons] at hreach
        rcases hreach with (rfl | hmem) | hreach
        · exact absurd rfl hc
        · exact Or.inl hmem
        · exact Or.inr (by omega)
      obtain ⟨t, t', ht, ht', hbuf⟩ := ih hp.inv hp'.inv (by rw [hux', hux, hend]) (by rw [huy', huy, hy])
        (by rw [hp'.color, hp.color, hcolor]) (by rwa [huy]) (by rw [hux, huy]; exact Nat.not_lt.mp hreached) hrest
      rw [huy] at hbuf
      exact ⟨t, t', (putText_cons hu).trans ht, (putText_cons hu').trans ht', hbuf⟩

/-- Both kinds of text. -/
theorem putText_strip (h : s.Inv) {text : List UInt8} (htext : 2 ≤ s.y ∨ 10 ∉ text ∧ s.x + text.length ≤ rowEnd s.y)
    (hrows : n < 2 * vgaWidth) (hstrip : Strip n) : ∃ t, putText k text s = .ok t ∧ t.buf n = s.buf n := by
  rcases htext with hbelow | ⟨hnl, hshort⟩
  · refine putText_keeps h text ?_ hrows hstrip
    rw [position]
    simp only [vgaWidth] at *
    omega
  · exact putText_short h hnl hshort hstrip

/-- Lines enough, and a screen of one cell throughout. -/
def plainScreen (x y : ℕ) (cell : UInt16) : Vga := { sampleVga with x := x, y := y, buf := fun _ => cell }

theorem plainScreen_inv {x y : ℕ} (hx : x < vgaWidth) (hy : y < vgaHeight) (cell : UInt16) :
    (plainScreen x y cell).Inv := by
  have hw : sampleVga.Window := ⟨by decide, by decide⟩
  exact ⟨hx, hy, hw.rows, hw.distinct⟩

end Vga

open Vga in
/-- **When the strips are kept.** For a position of the cursor that is not reserved and a string, `vga_print` leaves
the strips on every screen exactly if the position is below them, or the string has no newline and ends before the
strip of the row. -/
theorem strips_kept_iff (k : Kmalloc) {x y : ℕ} (hx : x < rowEnd y) (hy : y < vgaHeight) (str : List UInt8) :
    (∀ s : Vga, s.Inv → s.x = x → s.y = y → ∃ t, vgaPrint k str s = .ok t ∧ s.StripsKept t) ↔
      2 ≤ y ∨ 10 ∉ textOf str ∧ x + (textOf str).length ≤ rowEnd y := by
  have hwidth := hx.trans_le (rowEnd_le y)
  constructor
  · intro hall
    by_contra hno
    rw [not_or, not_and, not_le, not_le] at hno
    obtain ⟨hrow, hreach⟩ := hno
    have hreach' : 10 ∈ textOf str ∨ rowEnd y < x + (textOf str).length := or_iff_not_imp_left.mpr hreach
    -- two screens that differ in the first cell of the strip
    have h₁ := plainScreen_inv hwidth hy 1
    have h₂ := plainScreen_inv hwidth hy 2
    obtain ⟨t₁, t₂, ht₁, ht₂, hsame⟩ := putText_forgets (k := k) h₁ h₂ rfl rfl rfl hrow hx.le hreach'
    have hcell : y = 0 ∧ 70 ≤ rowEnd y ∧ rowEnd y < 80 ∨ y = 1 ∧ 65 ≤ rowEnd y ∧ rowEnd y < 80 := by
      rw [rowEnd]
      split_ifs <;> omega
    have hkept : ∀ {cell t}, putText k (textOf str) (plainScreen x y cell) = .ok t → t.buf (stripCell y) = cell := by
      intro cell t ht
      obtain ⟨u, hu, hstrips⟩ := hall (plainScreen x y cell) (plainScreen_inv hwidth hy cell) rfl rfl
      rw [vgaPrint_eq] at hu
      obtain rfl : u = t := Except.ok.inj (hu.symm.trans ht)
      exact hstrips y (rowEnd y) hcell
    have hne := (hkept ht₁).symm.trans (hsame.trans (hkept ht₂))
    exact absurd hne (by decide)
  · rintro htext s h rfl rfl
    obtain ⟨t, ht⟩ : ∃ t, putText k (textOf str) s = .ok t := by
      obtain ⟨t, ht, -⟩ := putText_strip (k := k) (n := 70) h htext (by decide)
        (@strip_of_rowEnd 0 70 (by decide) le_rfl)
      exact ⟨t, ht⟩
    refine ⟨t, by rw [vgaPrint_eq]; exact ht, fun i j hij => ?_⟩
    have hj : j < vgaWidth := by
      simp only [vgaWidth]
      omega
    have hend : rowEnd i ≤ j := by
      rw [rowEnd]
      split_ifs <;> omega
    have hrows : i * vgaWidth + j < 2 * vgaWidth := by
      simp only [vgaWidth] at *
      omega
    obtain ⟨u, hu, hsame⟩ := putText_strip (k := k) h htext hrows (strip_of_rowEnd hj hend)
    obtain rfl : u = t := Except.ok.inj (hu.symm.trans ht)
    exact hsame

open Vga in
theorem strips_kept_sample :
    ∃ t, vgaPrint sampleKmalloc [72, 105, 10, 0] (plainScreen 0 5 7) = .ok t ∧ (plainScreen 0 5 7).StripsKept t :=
  (strips_kept_iff sampleKmalloc (by decide : 0 < rowEnd 5) (by decide) [72, 105, 10, 0]).mpr (Or.inl (by decide))
    (plainScreen 0 5 7) (plainScreen_inv (by decide) (by decide) 7) rfl rfl

open Vga in
/-- Two characters from the last column before the strip of the first row: the second is written to the strip. -/
theorem strips_overwritten :
    ∃ t, vgaPrint sampleKmalloc [65, 66, 0] (plainScreen 69 0 7) = .ok t ∧ ¬ (plainScreen 69 0 7).StripsKept t := by
  have hrun : (vgaPrint sampleKmalloc [65, 66, 0] (plainScreen 69 0 7)).toOption.map (fun t => t.cell 0 70) =
      some 0x0742 := by
    decide +kernel
  obtain ⟨t, ht, hcell⟩ := exists_ok_of_map hrun
  refine ⟨t, ht, fun hkept => ?_⟩
  have hsame := hkept 0 70 (by decide)
  rw [hcell] at hsame
  exact absurd hsame (by decide)

end MoltarOS.Drivers
