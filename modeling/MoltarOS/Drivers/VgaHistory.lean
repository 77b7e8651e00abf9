import MoltarOS.Drivers.VgaPrint
import MoltarOS.Lib.Machine

/-!
# Printing while the user scrolls

The arrow keys call `vga_scroll_up` and `vga_scroll_down` from the keyboard's interrupt handler, between any two
characters of a text. They move the lines under the cursor, which stays where it is on the screen, so that the next
character goes to another line of the text.

## What is proved

* `history_kept_iff` — for which interleavings everything printed is kept, in print order: where no character is
  printed with `line_number` less than the character before it left it. Otherwise it goes to a line that was printed
  before (`history_overwritten`).
-/

namespace MoltarOS.Drivers

open MoltarOS.Lib

/-! ### Characters on lines -/

/-- The cells of the text that a character is printed to. -/
structure Glyph where
  /-- Their line. -/
  line : ℕ
  /-- The first column. -/
  col : ℕ
  /-- The column after the last. -/
  stop : ℕ
  /-- What they hold. -/
  cell : UInt16

namespace Glyph

/-- Where the cells begin, counting cells from the first line on. -/
def first (g : Glyph) : ℕ := g.line * vgaWidth + g.col

/-- Where they end. -/
def last (g : Glyph) : ℕ := g.line * vgaWidth + g.stop

end Glyph

namespace Vga

variable {s t : Vga} {k : Kmalloc}

/-- Where `vga_putc(c)` prints: a newline is the rest of its line. -/
def glyph (s : Vga) (c : UInt8) : Glyph := ⟨s.cursorLine, s.x, s.putEnd c, s.putCell c⟩

/-- The text has a character. -/
def Holds (s : Vga) (g : Glyph) : Prop := ∀ j : Fin vgaWidth, g.col ≤ j → j < g.stop → s.document g.line j = g.cell

/-- A character that ends in front of the cursor stays. -/
theorem Printed.holds_iff {c : UInt8} (hp : s.Printed c t) (h : s.Inv) {g : Glyph} (hg : g.last ≤ (s.glyph c).first) :
    t.Holds g ↔ s.Holds g := by
  refine forall_congr' fun j => imp_congr_right fun hcol => imp_congr_right fun hstop => ?_
  have hcell : t.document g.line j = s.document g.line j := by
    rw [hp.document, putBuf, document_span h.y]
    refine if_neg ?_
    rintro ⟨hline, -, hx, -⟩
    simp only [Glyph.last, Glyph.first, glyph, hline] at hg
    omega
  rw [hcell]

/-- Below the strips, the character is there once it is printed. -/
theorem Printed.holds_glyph {c : UInt8} (hp : s.Printed c t) (h : s.Inv) (hbelow : 2 ≤ s.y) : t.Holds (s.glyph c) := by
  intro j hcol hstop
  have hend : j < rowEnd s.y := by
    rw [rowEnd, if_neg (by omega), if_neg (by omega)]
    exact j.isLt
  rw [hp.document, putBuf, document_span h.y]
  exact if_pos ⟨rfl, hend, hcol, hstop⟩

/-- The next character is printed where this one ends. -/
theorem Printed.last_glyph {c : UInt8} (hp : s.Printed c t) (h : s.Inv) :
    (s.glyph c).last = t.cursorLine * vgaWidth + t.x := by
  have hle := putEnd_le h c
  rw [hp.cursorLine_eq h, hp.x, Glyph.last, glyph]
  by_cases hend : s.putEnd c < vgaWidth
  · rw [if_pos hend, if_pos hend]
  · rw [if_neg hend, if_neg hend]
    simp only [vgaWidth] at *
    omega

end Vga

/-! ### The machine -/

/-- The driver, and what was printed with it. -/
structure History where
  /-- The driver. -/
  vga : Vga
  /-- `line_number` as the last call of `vga_putc` left it. -/
  lineNumber : ℕ
  /-- The characters printed, the last first. -/
  printed : List Glyph

/-- What happens to it. -/
inductive Event where
  /-- `vga_putc(c)`. -/
  | putc (c : UInt8)
  /-- An arrow key, for which `keyboard_irq_handler` scrolls. -/
  | key (m : Move)

/-- One call. -/
def history (k : Kmalloc) : Machine History Event where
  step s
    | .putc c => (Vga.vgaPutc k 1 c s.vga).toOption.map fun t => ⟨t, t.lineNumber, s.vga.glyph c :: s.printed⟩
    | .key m => (s.vga.scroll k m).toOption.map fun t => { s with vga := t }

namespace History

variable {s t : History} {k : Kmalloc}

/-- Nothing is printed yet. -/
def start (s : Vga) : History := ⟨s, 0, []⟩

/-- No cell of a character is a cell of a later one, the characters are in print order, and the text has them all. -/
structure Kept (s : History) : Prop where
  /-- Each character begins after the end of those printed before it. -/
  order : s.printed.Pairwise fun g h => h.last ≤ g.first
  /-- The text has each. -/
  holds : ∀ g ∈ s.printed, s.vga.Holds g

/-- If a character is printed, it is with `line_number` at least as the one before left it. -/
def CaughtUp (s : History) : Event → Prop
  | .putc _ => s.lineNumber ≤ s.vga.lineNumber
  | .key _ => True

/-- The position after the last character, if the user has not scrolled since. -/
def bottom (s : History) : ℕ := (s.lineNumber + s.vga.y) * vgaWidth + s.vga.x

/-- The last character ends there. -/
structure Follows (s : History) : Prop where
  /-- The cursor is on the screen, -/
  inv : s.vga.Inv
  /-- below the strips. -/
  below : 2 ≤ s.vga.y
  /-- At first the screen shows the first lines. -/
  fresh : s.printed = [] → s.lineNumber = 0
  /-- The last character has cells up to the position. -/
  newest : ∀ g ∈ s.printed.head?, g.first ≤ g.last ∧ g.last = s.bottom

/-- So do the others, in front of it. -/
theorem Follows.last_le (h : s.Follows) (horder : s.printed.Pairwise fun g h => h.last ≤ g.first) :
    ∀ g ∈ s.printed, g.last ≤ s.bottom := by
  have hnewest := h.newest
  cases hp : s.printed with
  | nil => exact fun g hg => absurd hg List.not_mem_nil
  | cons g₀ rest =>
    rw [hp] at horder hnewest
    obtain ⟨hle, heq⟩ := hnewest g₀ rfl
    rintro g (_ | ⟨_, hg⟩)
    · exact heq.le
    · exact ((List.rel_of_pairwise_cons horder hg).trans hle).trans heq.le

/-- If the next character is printed with the lines as high as then, it is after all of them. -/
theorem bottom_le (c : UInt8) (h : s.lineNumber ≤ s.vga.lineNumber) : s.bottom ≤ (s.vga.glyph c).first := by
  have hline : (s.lineNumber + s.vga.y) * vgaWidth ≤ (s.vga.lineNumber + s.vga.y) * vgaWidth :=
    Nat.mul_le_mul_right _ (Nat.add_le_add_right h _)
  exact Nat.add_le_add_right hline _

/-- If it is after the last of them, the lines are as high. -/
theorem Follows.caughtUp (h : s.Follows) {c : UInt8} (hfirst : ∀ g ∈ s.printed, g.last ≤ (s.vga.glyph c).first) :
    s.lineNumber ≤ s.vga.lineNumber := by
  cases hp : s.printed with
  | nil =>
    rw [h.fresh hp]
    exact Nat.zero_le _
  | cons g rest =>
    obtain ⟨-, heq⟩ := h.newest g (by rw [hp]; rfl)
    have hle := hfirst g (by rw [hp]; exact List.mem_cons_self)
    rw [heq, bottom] at hle
    have hline : (s.lineNumber + s.vga.y) * vgaWidth ≤ (s.vga.lineNumber + s.vga.y) * vgaWidth :=
      Nat.le_of_add_le_add_right hle
    have hcursor := Nat.le_of_mul_le_mul_right hline (Nat.zero_lt_succ 79)
    omega

/-! ### One call -/

/-- What an event leaves. -/
inductive After (s : History) : Event → History → Prop where
  | putc {c : UInt8} {v : Vga} (hp : s.vga.Printed c v) :
      After s (.putc c) ⟨v, v.lineNumber, s.vga.glyph c :: s.printed⟩
  | key {m : Move} {v : Vga} {n : ℕ} (hs : s.vga.Scrolled v n) : After s (.key m) { s with vga := v }

/-- No call fails. -/
theorem Follows.step_after (h : s.Follows) (e : Event) : ∃ t, (history k).step s e = some t ∧ After s e t := by
  cases e with
  | putc c =>
    obtain ⟨v, hv, hp⟩ := Vga.vgaPutc_printed (k := k) h.inv 0 c
    exact ⟨_, by simp only [history, hv, Except.toOption, Option.map_some], .putc hp⟩
  | key m =>
    cases m with
    | up =>
      obtain ⟨v, hv, hs⟩ := Vga.vgaScrollUp_spec h.inv.window
      exact ⟨_, by simp only [history, Vga.scroll, hv, Except.toOption, Option.map_some], .key hs⟩
    | down =>
      obtain ⟨v, hv, hs⟩ := Vga.vgaScrollDown_spec (k := k) h.inv.window
      exact ⟨_, by simp only [history, Vga.scroll, hv, Except.toOption, Option.map_some], .key hs⟩

theorem Follows.after_of_step (h : s.Follows) {e : Event} (hs : (history k).step s e = some t) : After s e t := by
  obtain ⟨u, hu, ha⟩ := h.step_after (k := k) e
  obtain rfl : u = t := Option.some.inj (hu.symm.trans hs)
  exact ha

theorem Follows.after (h : s.Follows) {e : Event} (ha : After s e t) : t.Follows := by
  have hbelow := h.below
  cases ha with
  | @putc c v hp =>
    refine ⟨hp.inv, ?_, fun he => absurd he (List.cons_ne_nil _ _), ?_⟩
    · change 2 ≤ v.y
      rw [hp.y]
      split_ifs <;> omega
    · rintro g ⟨⟩
      exact ⟨Nat.add_le_add_left (Vga.lt_putEnd h.inv c).le _, hp.last_glyph h.inv⟩
  | @key m v n hs =>
    refine ⟨⟨?_, ?_, hs.window⟩, ?_, h.fresh, ?_⟩
    · exact hs.x.trans_lt h.inv.x
    · exact hs.y.trans_lt h.inv.y
    · exact hbelow.trans hs.y.ge
    · intro g hg
      rw [bottom, hs.x, hs.y]
      exact h.newest g hg

/-- **One event** keeps what was printed exactly if the lines are not higher when it prints. -/
theorem Follows.kept_iff (h : s.Follows) {e : Event} (ha : After s e t) : t.Kept ↔ s.Kept ∧ s.CaughtUp e := by
  cases ha with
  | @putc c v hp =>
    constructor
    · rintro ⟨horder, hholds⟩
      obtain ⟨hfirst, horder⟩ := List.pairwise_cons.mp horder
      refine ⟨⟨horder, fun g hg => ?_⟩, h.caughtUp hfirst⟩
      exact (hp.holds_iff h.inv (hfirst g hg)).mp (hholds g (List.mem_cons_of_mem _ hg))
    · rintro ⟨⟨horder, hholds⟩, hcaught⟩
      have hfirst : ∀ g ∈ s.printed, g.last ≤ (s.vga.glyph c).first := fun g hg =>
        (h.last_le horder g hg).trans (bottom_le c hcaught)
      refine ⟨List.pairwise_cons.mpr ⟨hfirst, horder⟩, ?_⟩
      rintro g (_ | ⟨_, hg⟩)
      · exact hp.holds_glyph h.inv h.below
      · exact (hp.holds_iff h.inv (hfirst g hg)).mpr (hholds g hg)
  | @key m v n hs =>
    have hsame : ∀ g, v.Holds g ↔ s.vga.Holds g := fun g => by rw [Vga.Holds, Vga.Holds, hs.document]
    constructor
    · rintro ⟨horder, hholds⟩
      exact ⟨⟨horder, fun g hg => (hsame g).mp (hholds g hg)⟩, trivial⟩
    · rintro ⟨⟨horder, hholds⟩, -⟩
      exact ⟨horder, fun g hg => (hsame g).mpr (hholds g hg)⟩

/-! ### Runs -/

theorem start_kept (s : Vga) : (start s).Kept := ⟨List.Pairwise.nil, fun _ hg => absurd hg List.not_mem_nil⟩

theorem start_follows {s : Vga} (h : s.Inv) (hbelow : 2 ≤ s.y) : (start s).Follows :=
  ⟨h, hbelow, fun _ => rfl, by rintro g ⟨⟩⟩

/-- Every run keeps what it printed exactly if each character was printed with the lines not higher than before. -/
theorem kept_of_run {s : Vga} (h : s.Inv) (hbelow : 2 ≤ s.y) (es : List Event) :
    ∃ t, (history k).run (start s) es = some t ∧ (t.Kept ↔ (history k).Each CaughtUp (start s) es) := by
  obtain ⟨t, ht, -⟩ := (history k).run_total (I := Follows) (fun s e hs => by
    obtain ⟨u, hu, ha⟩ := hs.step_after (k := k) e
    exact ⟨u, hu, hs.after ha⟩) (start_follows h hbelow) es
  refine ⟨t, ht, ?_⟩
  rw [(history k).each_iff (fun s e t hs hst => hs.after (hs.after_of_step hst))
    (fun s e t hs hst => hs.kept_iff (hs.after_of_step hst)) (start_follows h hbelow) ht]
  exact and_iff_right (start_kept s)

end History

open History in
/-- **What scrolling while printing does to the text.** From `vga_dynamic_init` on, with the cursor anywhere below
the strips, any interleaving of characters and arrow keys runs without a fault. It keeps everything printed, in print
order, exactly if no character is printed while `line_number` is less than the character before left it. -/
theorem history_kept_iff (k : Kmalloc) {s : Vga} (hx : s.x < vgaWidth) (hbelow : 2 ≤ s.y) (hy : s.y < vgaHeight)
    (hline : s.lineNumber = 0) (es : List Event) :
    ∃ u t, s.vgaDynamicInit k = .ok u ∧ (history k).run (start u) es = some t ∧
      (t.Kept ↔ (history k).Each CaughtUp (start u) es) := by
  obtain ⟨lines, hinit, hused, hd⟩ := Vga.vgaDynamicInit_spec (s := s) k
  have hrows : s.lineNumber + vgaHeight ≤ lines.used := by omega
  obtain ⟨t, ht, hkept⟩ := @kept_of_run k { s with lines := lines } ⟨hx, hy, hrows, hd⟩ hbelow es
  exact ⟨_, t, hinit, ht, hkept⟩

/-- A screen as `vga_init` clears it, with the cursor in the third row. -/
def freshVga : Vga := { sampleVga with y := 2, buf := fun _ => 0x0720 }

open History in
/-- Printing, scrolling down and up, and printing on. -/
theorem history_kept_iff_sample :
    ∃ u t, freshVga.vgaDynamicInit sampleKmalloc = .ok u ∧
      (history sampleKmalloc).run (start u) [.putc 65, .key .down, .key .up, .putc 66] = some t ∧
      (t.Kept ↔ (history sampleKmalloc).Each CaughtUp (start u) [.putc 65, .key .down, .key .up, .putc 66]) :=
  @history_kept_iff sampleKmalloc freshVga (by decide) (by decide) (by decide) rfl
    [.putc 65, .key .down, .key .up, .putc 66]

/-- Newlines to the last row, a line there that scrolls the screen, the arrow key up, and one more character. -/
def scrolledText : List Event := List.replicate 22 (.putc 10) ++ [.putc 65, .putc 10, .key .up, .putc 66]

open History in
/-- The last character of this text is printed over the first of the last line. -/
theorem history_overwritten :
    ∃ u t, freshVga.vgaDynamicInit sampleKmalloc = .ok u ∧ (history sampleKmalloc).run (start u) scrolledText = some t ∧
      t.vga.cell 24 0 = t.vga.colorChar 66 ∧ ¬ t.Kept := by
  obtain ⟨u, hu, hrun⟩ : ∃ u, freshVga.vgaDynamicInit sampleKmalloc = .ok u ∧
      ((history sampleKmalloc).run (start u) scrolledText).map (fun t =>
        (t.vga.cell 24 0, t.vga.color, (t.printed.take 3).map fun g => (g.first, g.last))) =
      some (0x0742, 7, [(1920, 1921), (1921, 2000), (1920, 1921)]) := ⟨_, rfl, by decide +kernel⟩
  obtain ⟨t, ht, heq⟩ := Option.map_eq_some_iff.mp hrun
  obtain ⟨hcell, hcolor, hcells⟩ : t.vga.cell 24 0 = 0x0742 ∧ t.vga.color = 7 ∧
      (t.printed.take 3).map (fun g => (g.first, g.last)) = [(1920, 1921), (1921, 2000), (1920, 1921)] := by
    simpa only [Prod.mk.injEq] using heq
  refine ⟨u, t, hu, ht, ?_, fun hkept => ?_⟩
  · rw [hcell, Vga.colorChar, hcolor]
    rfl
  · have horder : ((t.printed.take 3).map fun g => (g.first, g.last)).Pairwise fun a b => b.2 ≤ a.1 :=
      List.pairwise_map.mpr (hkept.order.sublist (List.take_sublist 3 t.printed))
    rw [hcells] at horder
    exact absurd horder (by decide)

end MoltarOS.Drivers
