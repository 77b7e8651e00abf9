import Mathlib.Data.FinEnum
import MoltarOS.Drivers.VgaStrips

/-!
# Colour

A cell holds a character in its low byte and an attribute in its high byte. `color_char` makes one of a
`char`, which is signed: widened to 16 bits, a byte from 128 on brings a high byte `0xFF` along, and the
colour is lost in it.

## What is proved

* `vgaSetColor_spec` — `vga_set_color` recolours every cell of the screen by `color_char` of its character.
* `vgaPutc_written` — so does `vga_putc` with the cells it writes, wherever a scroll has then moved them.
* `vgaSetColor_iff` — all characters are kept by both, and the attribute is the colour exactly if no byte from 128 on
  is on the screen or in the text, or the colour is white on white.
-/

namespace MoltarOS.Drivers

open MoltarOS.Lib

/-! ### Cells -/

/-- The character of a cell. -/
def charByte (cell : UInt16) : UInt8 := cell.toUInt8

/-- The attribute of a cell. -/
def attributeByte (cell : UInt16) : UInt8 := (cell >>> 8).toUInt8

/-- A cell that shows nothing: a space, or a zero. -/
def Blank (cell : UInt16) : Prop := charByte cell = 32 ∨ charByte cell = 0

theorem charByte_or (a : UInt16) (b : UInt8) : charByte (a ||| b.toUInt16 <<< 8) = a.toUInt8 := by
  apply UInt8.toBitVec_inj.mp
  ext i hi
  simp [charByte]

theorem attributeByte_or (a : UInt16) (b : UInt8) :
    attributeByte (a ||| b.toUInt16 <<< 8) = (a >>> 8).toUInt8 ||| b := by
  apply UInt8.toBitVec_inj.mp
  ext i hi
  simp [attributeByte]
  grind

/-- A cell is its two bytes. -/
theorem cell_ext {u v : UInt16} (hchar : charByte u = charByte v) (hattr : attributeByte u = attributeByte v) :
    u = v := by
  have hc := congrArg UInt8.toNat hchar
  have ha := congrArg UInt8.toNat hattr
  have hu := u.toNat_lt
  have hv := v.toNat_lt
  simp only [charByte, attributeByte, UInt16.toNat_toUInt8, UInt16.toNat_shiftRight, UInt16.reduceToNat, Nat.reduceMod,
    Nat.shiftRight_eq_div_pow, Nat.reducePow] at hc ha
  exact UInt16.toNat_inj.mp (by omega)

/-- A `char` widened to 16 bits keeps its bits, -/
theorem toUInt8_widened (c : UInt8) : c.toInt8.toInt16.toUInt16.toUInt8 = c := by
  apply UInt8.toBitVec_inj.mp
  ext i hi
  simp [BitVec.getLsbD_signExtend]
  grind

/-- and gets the sign in all the others. -/
theorem high_widened (c : UInt8) : (c.toInt8.toInt16.toUInt16 >>> 8).toUInt8 = if c < 128 then 0 else 255 := by
  revert c
  decide +kernel

theorem makeColor_eq {foreground background : UInt8} (hf : foreground < 16) (hb : background < 16) :
    makeColor foreground background = background * 16 + foreground := by
  have hcolors : ∀ f < 16, ∀ b < 16, makeColor (UInt8.ofNat f) (UInt8.ofNat b) =
      UInt8.ofNat b * 16 + UInt8.ofNat f := by
    decide +kernel
  have hfb := hcolors _ (UInt8.lt_iff_toNat_lt.mp hf) _ (UInt8.lt_iff_toNat_lt.mp hb)
  rwa [UInt8.ofNat_toNat, UInt8.ofNat_toNat] at hfb

namespace Vga

variable {s t : Vga} {k : Kmalloc}

@[simp] theorem charByte_colorChar (s : Vga) (c : UInt8) : charByte (s.colorChar c) = c := by
  rw [colorChar, charByte_or, toUInt8_widened]

/-- **The attribute that `color_char` gives**: the colour, or all ones. -/
theorem attributeByte_colorChar (s : Vga) (c : UInt8) :
    attributeByte (s.colorChar c) = if c < 128 then s.color else 255 := by
  rw [colorChar, attributeByte_or, high_widened]
  split_ifs
  · exact UInt8.zero_or
  · exact UInt8.neg_one_or

/-- It is the colour. -/
theorem attributeByte_eq_color_iff (s : Vga) (c : UInt8) :
    attributeByte (s.colorChar c) = s.color ↔ c < 128 ∨ s.color = 255 := by
  rw [attributeByte_colorChar]
  split_ifs with hc
  · simp [hc]
  · simp [hc, eq_comm]

/-! ### The screen -/

/-- `vga_set_color(foreground, background)`. -/
def vgaSetColor (foreground background : UInt8) (s : Vga) : Except Fault Vga :=
  let s := { s with color := makeColor foreground background }
  forLoop vgaHeight never (fun i s => forLoop vgaWidth never (fun j s =>
    s.write (i * vgaWidth + j) (s.colorChar (s.buf (i * vgaWidth + j)).toUInt8)) s) s

/-- The first `n` cells are recoloured. -/
def recolored (s : Vga) (buf : ℕ → UInt16) (n : ℕ) : ℕ → UInt16 :=
  fun m => if m < n then s.colorChar (charByte (buf m)) else buf m

theorem recolored_succ (s : Vga) (buf : ℕ → UInt16) (n : ℕ) :
    Function.update (s.recolored buf n) n (s.colorChar (charByte (s.recolored buf n n))) = s.recolored buf (n + 1) := by
  have hread : s.recolored buf n n = buf n := if_neg (Nat.lt_irrefl n)
  funext m
  rw [Function.update_apply, hread, recolored, recolored]
  by_cases hm : m = n
  · subst hm
    rw [if_pos rfl, if_pos (Nat.lt_succ_self m)]
  · rw [if_neg hm]
    exact if_congr (by omega) rfl rfl

/-- The loop over a row. -/
theorem recolorRow {i : ℕ} (hi : i < vgaHeight) (buf : ℕ → UInt16) :
    forLoop vgaWidth never (fun j s => s.write (i * vgaWidth + j) (s.colorChar (s.buf (i * vgaWidth + j)).toUInt8))
      (s.withBuf (s.recolored buf (i * vgaWidth))) = .ok (s.withBuf (s.recolored buf ((i + 1) * vgaWidth))) := by
  have hbody : ∀ j < vgaWidth, ∀ t, t = s.withBuf (s.recolored buf (i * vgaWidth + j)) →
      ∃ u, t.write (i * vgaWidth + j) (t.colorChar (t.buf (i * vgaWidth + j)).toUInt8) = .ok u ∧
        u = s.withBuf (s.recolored buf (i * vgaWidth + (j + 1))) := by
    rintro j hj t rfl
    refine ⟨_, write_eq _ ?_, ?_⟩
    · simp only [vgaWidth, vgaHeight] at *
      omega
    · rw [← Nat.add_assoc, ← recolored_succ]
      rfl
  obtain ⟨t, ht, rfl⟩ := forLoop_never hbody (s := s.withBuf (s.recolored buf (i * vgaWidth))) rfl
  rw [ht, Nat.succ_mul]

/-- **`vga_set_color` recolours the screen**, and nothing else changes. -/
theorem vgaSetColor_spec (s : Vga) (foreground background : UInt8) :
    ∃ t, s.vgaSetColor foreground background = .ok t ∧
      t = { s with color := makeColor foreground background, buf := t.buf } ∧
      ∀ n < vgaHeight * vgaWidth, t.buf n = t.colorChar (charByte (s.buf n)) := by
  let u : Vga := { s with color := makeColor foreground background }
  have hbody : ∀ i < vgaHeight, ∀ t, t = u.withBuf (u.recolored u.buf (i * vgaWidth)) →
      ∃ w, forLoop vgaWidth never
        (fun j s => s.write (i * vgaWidth + j) (s.colorChar (s.buf (i * vgaWidth + j)).toUInt8)) t =
        .ok w ∧ w = u.withBuf (u.recolored u.buf ((i + 1) * vgaWidth)) := by
    rintro i hi t rfl
    exact ⟨_, recolorRow hi u.buf, rfl⟩
  have hzero : u = u.withBuf (u.recolored u.buf (0 * vgaWidth)) := by
    rw [show u.recolored u.buf (0 * vgaWidth) = u.buf from funext fun n => if_neg (by omega)]
    rfl
  obtain ⟨t, ht, rfl⟩ := forLoop_never hbody hzero
  exact ⟨_, ht, rfl, fun n hn => if_pos hn⟩

/-! ### The text -/

/-- The character that `vga_putc(c)` shows: blanks for a newline and a tab. -/
def shown (c : UInt8) : UInt8 := if c = 10 ∨ c = 9 then 32 else c

/-- Where a cell that was written to the row of `s` is in `t`: the text may have moved up, with a line of its own or
another row, a strip has not. -/
def writtenCell (s t : Vga) (j : Fin vgaWidth) : UInt16 :=
  if j < rowEnd s.y then t.document s.cursorLine j else t.buf (s.y * vgaWidth + j)

/-- **Every cell that `vga_putc` writes** holds `color_char` of the character shown. -/
theorem vgaPutc_written {c : UInt8} (h : s.Inv) (hp : s.Printed c t) {j : Fin vgaWidth} (hj : s.x ≤ j)
    (hend : j < s.putEnd c) :
    s.writtenCell t j = s.colorChar (shown c) := by
  have hwidth := j.isLt
  rw [writtenCell]
  by_cases hrow : j < rowEnd s.y
  · rw [if_pos hrow, hp.document]
    exact (document_span h.y _ j).trans (if_pos ⟨rfl, hrow, hj, hend⟩)
  · rw [if_neg hrow, hp.strip _ (strip_of_rowEnd hwidth (not_lt.mp hrow)), putBuf, span]
    simp only [vgaWidth] at *
    exact if_pos (by omega)

/-- Every cell that is written while `text` is printed carries its character, and the attribute `a`. -/
def Carries (k : Kmalloc) (s : Vga) (a : UInt8) : List UInt8 → Prop
  | [] => True
  | c :: text => ∃ t, vgaPutc k 1 c s = .ok t ∧
    (∀ j : Fin vgaWidth, s.x ≤ j → j < s.putEnd c →
      charByte (s.writtenCell t j) = shown c ∧ attributeByte (s.writtenCell t j) = a) ∧ Carries k t a text

theorem carries_iff (h : s.Inv) (text : List UInt8) :
    Carries k s s.color text ↔ s.color = 255 ∨ ∀ c ∈ text, c < 128 := by
  induction text generalizing s with
  | nil => simp [Carries]
  | cons c text ih =>
    obtain ⟨t, ht, hp⟩ := vgaPutc_printed (k := k) h 0 c
    have hcells : (∀ j : Fin vgaWidth, s.x ≤ j → j < s.putEnd c →
        charByte (s.writtenCell t j) = shown c ∧ attributeByte (s.writtenCell t j) = s.color) ↔
        c < 128 ∨ s.color = 255 := by
      have hshown : shown c < 128 ↔ c < 128 := by
        rw [shown]
        split_ifs with hc
        · rcases hc with rfl | rfl <;> decide
        · rfl
      rw [← hshown, ← attributeByte_eq_color_iff]
      constructor
      · intro hall
        have hfirst := (hall ⟨s.x, h.x⟩ le_rfl (lt_putEnd h c)).2
        rwa [vgaPutc_written h hp (j := ⟨s.x, h.x⟩) le_rfl (lt_putEnd h c)] at hfirst
      · intro hattr j hj hend
        rw [vgaPutc_written h hp hj hend]
        exact ⟨charByte_colorChar s _, hattr⟩
    have hrest := ih hp.inv
    rw [hp.color] at hrest
    simp only [Carries, ht, Except.ok.injEq, exists_eq_left', hcells, hrest, List.forall_mem_cons]
    tauto

/-- The screen of `t` is that of `s` with the attribute `a`. -/
def Recolored (s t : Vga) (a : UInt8) : Prop :=
  ∀ n < vgaHeight * vgaWidth, charByte (t.buf n) = charByte (s.buf n) ∧ attributeByte (t.buf n) = a

/-- **When the colour is what was asked for**: `vga_set_color` and the text printed after it keep every character,
and give it the attribute, exactly if all characters are below 128; or the attribute is all ones. -/
theorem vgaSetColor_iff (k : Kmalloc) (h : s.Inv) {foreground background : UInt8} (hf : foreground < 16)
    (hb : background < 16) (str : List UInt8) :
    (∃ t, s.vgaSetColor foreground background = .ok t ∧ Recolored s t (background * 16 + foreground) ∧
        Carries k t (background * 16 + foreground) (textOf str)) ↔
      background * 16 + foreground = 255 ∨
        (∀ n < vgaHeight * vgaWidth, charByte (s.buf n) < 128) ∧ ∀ c ∈ textOf str, c < 128 := by
  obtain ⟨t, ht, heq, hbuf⟩ := vgaSetColor_spec s foreground background
  have hcolor : t.color = background * 16 + foreground := by
    rw [heq]
    exact makeColor_eq hf hb
  have hinv : t.Inv := by
    rw [heq]
    exact ⟨h.x, h.y, h.window.rows, h.window.distinct⟩
  have hscreen : Recolored s t t.color ↔ t.color = 255 ∨ ∀ n < vgaHeight * vgaWidth, charByte (s.buf n) < 128 := by
    have hcell : ∀ n < vgaHeight * vgaWidth,
      (charByte (t.buf n) = charByte (s.buf n) ∧ attributeByte (t.buf n) = t.color ↔
        charByte (s.buf n) < 128 ∨ t.color = 255) := fun n hn => by
      rw [hbuf n hn, charByte_colorChar, attributeByte_eq_color_iff]
      exact and_iff_right rfl
    refine (forall₂_congr hcell).trans ?_
    by_cases h255 : t.color = 255
    · exact iff_of_true (fun n hn => .inr h255) (.inl h255)
    · simp only [h255, or_false, false_or]
  rw [← hcolor, or_and_left, ← hscreen, ← carries_iff hinv]
  constructor
  · rintro ⟨u, hu, hboth⟩
    obtain rfl := Except.ok.inj (ht.symm.trans hu)
    exact hboth
  · exact fun hboth => ⟨t, ht, hboth⟩

end Vga

open Vga in
/-- A blank screen, in yellow on blue. -/
theorem vgaSetColor_iff_blank :
    ∃ t, (plainScreen 0 0 0x0720).vgaSetColor 14 1 = .ok t ∧ Recolored (plainScreen 0 0 0x0720) t (1 * 16 + 14) ∧
      Carries sampleKmalloc t (1 * 16 + 14) (textOf [72, 105, 10]) :=
  (vgaSetColor_iff sampleKmalloc (plainScreen_inv (by decide) (by decide) 0x0720) (by decide) (by decide)
    [72, 105, 10]).mpr
    (.inr ⟨fun _ _ => (by decide : charByte 0x0720 < 128), by decide +kernel⟩)

open Vga in
/-- A screen of `é`, grey on black: white on white after `vga_set_color(COLOR_LIGHT_GREY, COLOR_BLACK)`. -/
theorem vgaSetColor_loses_color :
    ∃ t, (plainScreen 0 0 0x07E9).vgaSetColor 7 0 = .ok t ∧
      (∀ n < vgaHeight * vgaWidth, attributeByte (t.buf n) = 0xFF) ∧
      ¬Recolored (plainScreen 0 0 0x07E9) t (0 * 16 + 7) := by
  obtain ⟨t, ht, -, hbuf⟩ := vgaSetColor_spec (plainScreen 0 0 0x07E9) 7 0
  have hlost : ∀ n < vgaHeight * vgaWidth, attributeByte (t.buf n) = 0xFF := fun n hn => by
    rw [hbuf n hn, attributeByte_colorChar]
    exact if_neg (by decide : ¬charByte 0x07E9 < 128)
  refine ⟨t, ht, hlost, fun h => ?_⟩
  have hfirst := (h 0 (by decide)).2
  rw [hlost 0 (by decide)] at hfirst
  exact absurd hfirst (by decide)

end MoltarOS.Drivers
