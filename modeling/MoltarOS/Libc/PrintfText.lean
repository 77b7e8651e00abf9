import Mathlib.Data.List.TakeWhile
import MoltarOS.Libc.PrintfFormat

/-!
# What `printf` and `sprintf` print

## What is proved

* `exists_format` — every text without a 0 is the pieces of a format and a tail.
* `printf_eq` — `printf` shows the rendering of the pieces and returns its length, or has the fault that it has, counted
  in an `int`.
* `sprintf_leaves` — `sprintf` leaves the rendering as a string, changes no other byte, and returns its length, if that
  is an `int`.
* `printf_inside` — the result of `printf` depends on its format and its strings alone, unless a directive at the end of
  the format has no letter: then the 0 is taken for the letter, and what comes after it is printed.
-/

namespace MoltarOS.Libc

open MoltarOS.Lib MoltarOS.Lib.Word

/-! ### Every text is a format -/

/-- The zeros and the width that a text begins with, after a `-` or not. -/
theorem exists_flags_from (minus : Bool) (text : List UInt8) : ∃ (f : Flags) (rest : List UInt8),
    (if minus then ['-'.toUInt8] else []) ++ text = f.text ++ rest ∧ f.minus = minus ∧
    ∀ c ∈ rest.head?, ¬IsDigit c := by
  have hzeros : text.takeWhile (· = '0'.toUInt8) =
    List.replicate (text.takeWhile (· = '0'.toUInt8)).length '0'.toUInt8 :=
    List.eq_replicate_of_mem fun c hc => by simpa using List.mem_takeWhile_imp hc
  have hdigits : ∀ c ∈ (text.dropWhile (· = '0'.toUInt8)).takeWhile (IsDigit ·), IsDigit c := fun c hc => by
    simpa using List.mem_takeWhile_imp hc
  have hhead : ∀ c ∈ ((text.dropWhile (· = '0'.toUInt8)).takeWhile (IsDigit ·)).head?, c ≠ '0'.toUInt8 := fun c hc => by
    have hnot := List.head?_dropWhile_not (· = '0'.toUInt8) text
    cases hdrop : text.dropWhile (· = '0'.toUInt8) with
    | nil =>
      rw [hdrop] at hc
      cases hc
    | cons d rest =>
      rw [hdrop] at hc hnot
      rw [List.takeWhile_cons] at hc
      split at hc
      · obtain rfl : d = c := Option.some.inj hc
        exact of_decide_eq_false hnot
      · cases hc
  have hrest : ∀ c ∈ ((text.dropWhile (· = '0'.toUInt8)).dropWhile (IsDigit ·)).head?, ¬IsDigit c := fun c hc => by
    have hnot := List.head?_dropWhile_not (IsDigit ·) (text.dropWhile (· = '0'.toUInt8))
    rw [Option.mem_def.mp hc] at hnot
    exact of_decide_eq_false hnot
  refine ⟨⟨minus, (text.takeWhile (· = '0'.toUInt8)).length, _, hdigits, hhead⟩, _, ?_, rfl, hrest⟩
  rw [Flags.text, ← hzeros, List.append_assoc, List.append_assoc, List.takeWhile_append_dropWhile,
    List.takeWhile_append_dropWhile]

/-- The flags that a text begins with. -/
theorem exists_flags (text : List UInt8) : ∃ (f : Flags) (rest : List UInt8), text = f.text ++ rest ∧
    (∀ c ∈ rest.head?, ¬IsDigit c) ∧ (f.text = [] → ∀ c ∈ rest.head?, c ≠ '-'.toUInt8) := by
  by_cases hminus : text.head? = some '-'.toUInt8
  · obtain ⟨rest, rfl⟩ : ∃ rest, text = '-'.toUInt8 :: rest := by
      cases text with
      | nil => cases hminus
      | cons c rest => exact ⟨rest, by rw [Option.some.inj hminus]⟩
    obtain ⟨f, rest', htext, hf, hletter⟩ := exists_flags_from true rest
    refine ⟨f, rest', htext, hletter, fun hnil => ?_⟩
    rw [Flags.text, hf] at hnil
    cases hnil
  · obtain ⟨f, rest, htext, -, hletter⟩ := exists_flags_from false text
    refine ⟨f, rest, htext, hletter, fun hnil c hc heq => hminus ?_⟩
    rw [hnil] at htext
    exact (congrArg List.head? htext).trans (heq ▸ hc)

/-- **Every text without a 0 is a format**. -/
theorem exists_format (text : List UInt8) (h : 0 ∉ text) :
    ∃ (ps : List Piece) (tail : Tail), text = spell ps ++ tail.text := by
  induction hlen : text.length using Nat.strong_induction_on generalizing text with
  | _ n ih =>
    -- a piece, and the rest of the text
    have hcons : ∀ (p : Piece) (rest : List UInt8), text = p.text ++ rest → 0 < p.text.length →
        ∃ (ps : List Piece) (tail : Tail), text = spell ps ++ tail.text := fun p rest htext hpos => by
      obtain ⟨ps, tail, hrest⟩ := ih rest.length (by rw [← hlen, htext, List.length_append]; omega) rest
        (fun hmem => h (htext ▸ List.mem_append_right _ hmem)) rfl
      exact ⟨p :: ps, tail, by rw [htext, hrest, spell_cons, List.append_assoc]⟩
    cases text with
    | nil => exact ⟨[], .none, rfl⟩
    | cons c rest =>
      have hc0 : c ≠ 0 := fun hc => h (hc ▸ List.mem_cons_self)
      by_cases hc : c = '%'.toUInt8
      · obtain ⟨f, rest', hflags, hletter, hplain⟩ := exists_flags rest
        cases hrest' : rest' with
        | nil =>
          rw [hrest', List.append_nil] at hflags
          by_cases hnil : f.text = []
          · exact ⟨[], .lone, by rw [hc, hflags, hnil]; rfl⟩
          · exact ⟨[], .unfinished f hnil, by rw [hc, hflags]; rfl⟩
        | cons letter more =>
          rw [hrest'] at hflags hletter hplain
          have hne : letter ≠ 0 := fun hzero => h (by rw [hflags, hzero]; simp)
          by_cases hpercent : f.text = [] ∧ letter = '%'.toUInt8
          · exact hcons .percent more (by rw [hc, hflags, hpercent.1, hpercent.2]; rfl) (Nat.succ_pos _)
          · exact hcons (.directive ⟨f, letter, hne, hletter letter rfl, fun hnil => ⟨fun heq => hpercent ⟨hnil, heq⟩,
              hplain hnil letter rfl⟩⟩) more (by rw [hc, hflags]; simp [Piece.text]) (Nat.succ_pos _)
      · exact hcons (.char c ⟨hc0, hc⟩) rest rfl (Nat.succ_pos _)

/-! ### No 0 is sent -/

variable {str : UInt32 → List UInt8} {args : List UInt32}

theorem zero_not_mem_justify {pad : Pad} {width : ℕ} {text : List UInt8} (h : 0 ∉ text) :
    0 ∉ justify pad width text := by
  have hpad : ∀ n, (0 : UInt8) ∉ List.replicate n (if pad.zero then '0'.toUInt8 else ' '.toUInt8) := fun n hmem => by
    have heq := List.eq_of_mem_replicate hmem
    split at heq <;> exact absurd heq (by decide)
  rw [justify]
  split <;> rw [List.mem_append, not_or]
  · exact ⟨h, hpad _⟩
  · exact ⟨hpad _, h⟩

theorem zero_not_mem_printiText {i b letbase : UInt32} (hb : Base b) (hl : letbase = 97 ∨ letbase = 65)
    (sg : Bool) (width : ℕ) (pad : Pad) : 0 ∉ printiText i b sg width pad letbase := by
  have hdigits : 0 ∉ printiDigits i b sg letbase := zero_not_mem_printiDigits hb hl
  have hminus : (0 : UInt8) ≠ '-'.toUInt8 := by decide
  rw [printiText]
  split
  · split
    · exact fun hmem => (List.mem_cons.mp hmem).elim hminus (zero_not_mem_justify hdigits)
    · exact zero_not_mem_justify fun hmem => (List.mem_cons.mp hmem).elim hminus hdigits
  · exact zero_not_mem_justify hdigits

theorem zero_not_mem_renderArg (d : Directive) {a : UInt32} (h : d.letter = 's'.toUInt8 → a ≠ 0 → 0 ∉ str a) :
    0 ∉ d.renderArg str a := by
  have h10 : Base 10 := .inl rfl
  have h16 : Base 16 := .inr rfl
  rw [Directive.renderArg]
  split_ifs with hs ha
  · exact zero_not_mem_justify (h hs ha)
  · exact zero_not_mem_justify (by decide)
  · exact zero_not_mem_printiText h10 (.inl rfl) _ _ _
  · exact zero_not_mem_printiText h16 (.inl rfl) _ _ _
  · exact zero_not_mem_printiText h16 (.inr rfl) _ _ _
  · exact zero_not_mem_printiText h10 (.inl rfl) _ _ _
  · exact zero_not_mem_justify List.not_mem_nil
  · rename_i ha
    exact zero_not_mem_justify fun hmem => ha (List.mem_singleton.mp hmem).symm

theorem zero_not_mem_piece {p : Piece} {text : List UInt8} (h : p.render str args = .ok text)
    (hstr : ∀ a ∈ p.pointers args, 0 ∉ str a) : 0 ∉ text := by
  cases p with
  | char c hc =>
    obtain rfl : [c] = text := Except.ok.inj h
    exact fun hmem => hc.1 (List.mem_singleton.mp hmem).symm
  | percent =>
    obtain rfl : ['%'.toUInt8] = text := Except.ok.inj h
    decide
  | directive d =>
    rw [Piece.render] at h
    split_ifs at h with hwidth htakes
    · cases args with
      | nil => cases h
      | cons a rest =>
        obtain rfl : d.renderArg str a = text := Except.ok.inj h
        exact zero_not_mem_renderArg d fun hs ha => hstr a (by rw [Piece.pointers, if_pos hs]; simpa using ha)
    · obtain rfl : [] = text := Except.ok.inj h
      exact List.not_mem_nil

theorem zero_not_mem_render {ps : List Piece} {text : List UInt8} (h : render str ps args = .ok text)
    (hstr : ∀ a ∈ pointers ps args, 0 ∉ str a) : 0 ∉ text := by
  induction ps generalizing args text with
  | nil =>
    obtain rfl : [] = text := Except.ok.inj h
    exact List.not_mem_nil
  | cons p ps ih =>
    obtain ⟨first, hfirst, h⟩ := bind_eq_ok h
    obtain ⟨more, hmore, h⟩ := bind_eq_ok h
    obtain rfl : first ++ more = text := Except.ok.inj h
    rw [List.mem_append, not_or]
    exact ⟨zero_not_mem_piece hfirst fun a ha => hstr a (List.mem_append_left _ ha),
      ih hmore fun a ha => hstr a (List.mem_append_right _ ha)⟩

/-! ### Whole calls -/

variable {out : Out} {m : Mem} {format : UInt32} {ps : List Piece} {tail : Tail} {text : List UInt8} {pc : ℕ}

/-- Every piece is written with a character. -/
theorem length_le_spell (ps : List Piece) : ps.length ≤ (spell ps).length := by
  induction ps with
  | nil => exact Nat.le_refl 0
  | cons p ps ih =>
    have hpos : 0 < p.text.length := by cases p <;> simp [Piece.text]
    rw [spell_cons, List.length_append, List.length_cons]
    omega

/-- A format whose last directive has its letter. -/
def Tail.Finished : Tail → Prop
  | .unfinished _ _ => False
  | _ => True

/-- At the end of such a format `print` stops. -/
theorem printLoop_end (htail : tail.Finished) (h : out.mem.Holds format (tail.text ++ [0])) {fuel : ℕ} :
    printLoop (fuel + 1) format args (out, pc) = .ok (out, pc) := by
  cases tail with
  | none =>
    have hend : out.mem format = 0 := h.1
    rw [printLoop, hend, if_pos rfl]
  | lone =>
    have hpercent : out.mem format = '%'.toUInt8 := h.1
    have hend : out.mem (format + 1) = 0 := h.2.1
    rw [printLoop, hpercent, if_neg (by decide), if_pos rfl]
    simp only [hend, if_true]
  | unfinished f hf => exact htail.elim

/-- **`print` sends the rendering of its format.** -/
theorem printLoop_eq (htail : tail.Finished) (hlen : (spell ps ++ tail.text).length < turns)
    (hrender : renderInt str 0 ps args = .ok text)
    (hformat : ∀ sent : List UInt8, sent.length ≤ text.length →
      (out.emit sent).mem.Holds format (spell ps ++ tail.text ++ [0]))
    (hstr : ∀ a ∈ pointers ps args, Spells (inMem a) out text.length (str a)) :
    printLoop turns format args (out, 0) = .ok (out.emit text, text.length) := by
  have hle := length_le_spell ps
  rw [List.length_append] at hlen
  obtain ⟨fuel, hfuel⟩ : ∃ fuel, turns = fuel + 1 + ps.length := ⟨turns - 1 - ps.length, by omega⟩
  have hend : (out.emit text).mem.Holds (format + UInt32.ofNat (spell ps).length) (tail.text ++ [0]) := by
    have h := hformat text (Nat.le_refl _)
    rw [List.append_assoc, Mem.holds_append] at h
    exact h.2
  rw [hfuel, printLoop_pieces hrender (fun sent hsent => ?_) (by omega) hstr, Nat.zero_add]
  · exact printLoop_end htail hend
  · have h := hformat sent hsent
    rw [List.append_assoc, Mem.holds_append] at h
    exact h.1

/-- What is not written to stays a string to read. -/
theorem spells_of_apart {n : ℕ} {dest a : UInt32} {text : List UInt8} (h : CString m a text)
    (hapart : ∀ i ≤ text.length, n ≤ dist dest (a + UInt32.ofNat i)) :
    Spells (inMem a) { mem := m, str := some dest, screen := [] } n text :=
  spells_inMem h fun i hi str hstr => by
    obtain rfl : dest = str := Option.some.inj hstr
    exact hapart i hi

/-- A memory that begins with the bytes. -/
def ofBytes (bytes : List UInt8) : Mem := fun a => bytes.getD a.toNat 0

theorem holds_ofBytes {bytes : List UInt8} (h : bytes.length ≤ 2 ^ 32) : (ofBytes bytes).Holds 0 bytes := by
  refine (Mem.holds_iff _ _ _).mpr fun i hi => ?_
  rw [ofBytes, UInt32.zero_add, toNat_ofNat_of_lt (by omega)]

/-- **`printf` shows the rendering** and returns its length, or has the fault that the rendering has, that of too many
characters for an `int` included. -/
theorem printf_eq (htail : tail.Finished) (hformat : CString m format (spell ps ++ tail.text))
    (hstr : ∀ a ∈ pointers ps args, CString m a (str a)) :
    printf m format args = (renderInt str 0 ps args).map fun text => (text, text.length) := by
  obtain ⟨hholds, -, hlen⟩ := cString_iff.mp hformat
  rw [printf, print]
  cases hrender : renderInt str 0 ps args with
  | error e =>
    have hle := length_le_spell ps
    rw [List.length_append] at hlen
    obtain ⟨fuel, hfuel⟩ : ∃ fuel, turns = fuel + ps.length := ⟨turns - ps.length, by rw [turns]; omega⟩
    rw [List.append_assoc, Mem.holds_append] at hholds
    rw [hfuel, printLoop_fault hrender rfl hholds.1 (by rw [turns]; omega) hstr]
    rfl
  | ok text =>
    have hemit : ∀ sent, ({ mem := m, str := none, screen := [] } : Out).emit sent =
        { mem := m, str := none, screen := [] ++ sent } := fun sent => Out.emit_screen sent rfl
    rw [printLoop_eq htail hlen hrender (fun sent _ => by rw [hemit]; exact hholds) fun a ha =>
      spells_inMem (hstr a ha) fun _ _ => Out.keeps_of_none rfl]
    rw [ok_bind, ok_bind, hemit]
    rfl

/-- `"%d"` at address 0. -/
def decimalFormat : Mem := ofBytes ['%'.toUInt8, 'd'.toUInt8, 0]

theorem cString_decimalFormat : CString decimalFormat 0 (spell [plain 'd'.toUInt8 (by decide)] ++ Tail.none.text) :=
  cString_iff.mpr ⟨holds_ofBytes (by decide), by decide, by decide⟩

theorem printf_eq_decimal : printf decimalFormat 0 [42] =
    (renderInt (fun _ => []) 0 [plain 'd'.toUInt8 (by decide)] [42]).map fun text => (text, text.length) :=
  printf_eq (by trivial) cString_decimalFormat fun _ ha => absurd ha List.not_mem_nil

theorem render_decimal :
    render (fun _ => []) [plain 'd'.toUInt8 (by decide)] [42] = .ok ['4'.toUInt8, '2'.toUInt8] := by
  have hdigits : printiText 42 10 true 0 ⟨false, false⟩ 97 = ['4'.toUInt8, '2'.toUInt8] := by decide
  rw [← hdigits]
  rfl

/-- **`sprintf` leaves the rendering as a string**, no other byte changes, and the result is its length; if an `int`
counts it and what is written does not reach the format and the strings. -/
theorem sprintf_leaves {dest : UInt32} (htail : tail.Finished) (hformat : CString m format (spell ps ++ tail.text))
    (hstr : ∀ a ∈ pointers ps args, CString m a (str a)) (hrender : render str ps args = .ok text)
    (hint : text.length < 2 ^ 31)
    (hapart : ∀ i ≤ (spell ps ++ tail.text).length, text.length ≤ dist dest (format + UInt32.ofNat i))
    (hapart' : ∀ a ∈ pointers ps args, ∀ i ≤ (str a).length, text.length ≤ dist dest (a + UInt32.ofNat i)) :
    ∃ m', sprintf m dest format args = .ok (m', text.length) ∧ CString m' dest text ∧ strlen m' dest = text.length ∧
      ∀ a, text.length < dist dest a → m' a = m a := by
  obtain ⟨hholds, -, hlen⟩ := cString_iff.mp hformat
  have hshort : text.length < 2 ^ 32 := by omega
  have hcount : renderInt str 0 ps args = .ok text :=
    (renderInt_eq_ok_iff (by decide)).mpr ⟨hrender, (Nat.zero_add _).symm ▸ hint⟩
  have hkeeps : ∀ sent : List UInt8, sent.length ≤ text.length →
      (({ mem := m, str := some dest, screen := [] } : Out).emit sent).mem.Holds format
        (spell ps ++ tail.text ++ [0]) := fun sent hsent => by
    rw [Mem.holds_iff] at hholds ⊢
    intro i hi
    have hi' : i ≤ (spell ps ++ tail.text).length := by
      rw [List.length_append, List.length_singleton] at hi
      omega
    refine (Out.Keeps.emit_mem fun str hstr => ?_).trans (hholds i hi)
    obtain rfl : dest = str := Option.some.inj hstr
    exact hsent.trans (hapart i hi')
  have hprint := printLoop_eq htail hlen hcount hkeeps fun a ha => spells_of_apart (hstr a ha) (hapart' a ha)
  have hdest : (({ mem := m, str := some dest, screen := [] } : Out).emit text).str =
    some (dest + UInt32.ofNat text.length) :=
    Out.emit_str text rfl
  have hmem : ∀ a, (({ mem := m, str := some dest, screen := [] } : Out).emit text).mem a =
      if dist dest a < text.length then text.getD (dist dest a) 0 else m a :=
      Out.emit_mem text rfl (Nat.le_of_lt hshort)
  generalize ({ mem := m, str := some dest, screen := [] } : Out).emit text = sent at hprint hdest hmem
  have hstring : CString (sent.mem.set (dest + UInt32.ofNat text.length) 0) dest text := by
    refine ⟨fun i hi => ?_, zero_not_mem_render hrender fun a ha => (hstr a ha).nul, hshort⟩
    have hi' := dist_add_ofNat dest (Nat.lt_of_le_of_lt hi hshort)
    by_cases hend : i = text.length
    · rw [Mem.set_apply, if_pos (by rw [hend]), List.getD_eq_default _ _ (by omega)]
    · rw [Mem.set_of_ne _ _ fun heq => hend (hi'.symm.trans ((eq_add_ofNat_iff hshort).mp heq)), hmem, hi',
        if_pos (by omega)]
  refine ⟨_, ?_, hstring, strlen_eq hstring, fun a ha => ?_⟩
  · rw [sprintf, print, hprint, ok_bind, ok_bind, terminate, hdest]
  · rw [Mem.set_of_ne _ _ fun heq => ?_, hmem, if_neg (by omega)]
    have := (eq_add_ofNat_iff hshort).mp heq
    omega

theorem sprintf_leaves_decimal : ∃ m', sprintf decimalFormat 16 0 [42] = .ok (m', 2) ∧
    CString m' 16 ['4'.toUInt8, '2'.toUInt8] ∧
    strlen m' 16 = 2 ∧ ∀ a, 2 < Word.dist 16 a → m' a = decimalFormat a :=
  sprintf_leaves (by trivial) cString_decimalFormat (fun _ ha => absurd ha List.not_mem_nil) render_decimal
    (by decide) (by decide) fun _ ha => absurd ha List.not_mem_nil

/-! ### Looking beyond the format -/

/-- `printf` depends on the format and the strings that it names alone. -/
def Inside (ps : List Piece) (tail : Tail) : Prop :=
  ∀ (m m' : Mem) (str : UInt32 → List UInt8) (format : UInt32) (args : List UInt32),
    CString m format (spell ps ++ tail.text) → CString m' format (spell ps ++ tail.text) →
    (∀ a ∈ pointers ps args, CString m a (str a) ∧ CString m' a (str a)) → printf m format args = printf m' format args

/-- The last directive has no letter, and `print` gets there with some arguments. -/
def ReadsOn (ps : List Piece) (tail : Tail) : Prop :=
  (∃ str args text, renderInt str 0 ps args = .ok text) ∧ ∃ f hf, tail = .unfinished f hf ∧ f.width < 2 ^ 31

/-- The 0 is taken for the letter. -/
theorem printLoop_unfinished {f : Flags} {hf : f.text ≠ []} {fuel : ℕ} (hlen : f.text.length < turns)
    (h : out.mem.Holds format ((Tail.unfinished f hf).text ++ [0])) (hpc : pc < 2 ^ 31) :
    printLoop (fuel + 1) format args (out, pc) =
      if f.width < 2 ^ 31 then printLoop fuel (format + UInt32.ofNat (f.text.length + 2)) args (out, pc)
      else .error .width := by
  have hother : ¬TakesArg 0 := by decide
  have hadd : intAdd pc 0 = .ok pc := intAdd_of_lt hpc
  rw [printLoop_percent h hlen (by decide) fun hnil => absurd hnil hf]
  split
  · rw [printArg_other hother, ok_bind]
    simp only [hadd, ok_bind]
  · rfl

theorem terminate_screen (out : Out) : (terminate out).screen = out.screen := by
  rw [terminate]
  split <;> rfl

/-- After the pieces come the 0 and what is behind it. -/
theorem printf_unfinished {f : Flags} {hf : f.text ≠ []}
    (hformat : CString m format (spell ps ++ (Tail.unfinished f hf).text))
    (hstr : ∀ a ∈ pointers ps args, CString m a (str a)) :
    ∃ fuel, turns ≤ fuel + 1 + ps.length ∧ printf m format args = (do
      let text ← renderInt str 0 ps args
      if f.width < 2 ^ 31 then do
        let (out, pc) ← printLoop fuel
          (format + UInt32.ofNat ((spell ps ++ (Tail.unfinished f hf).text).length + 1)) (restArgs ps args)
          ({ mem := m, str := none, screen := text }, text.length)
        .ok (out.screen, pc)
      else .error .width) := by
  obtain ⟨hholds, -, hlen⟩ := cString_iff.mp hformat
  have htail : (Tail.unfinished f hf).text.length = f.text.length + 1 := List.length_cons
  have hle := length_le_spell ps
  rw [List.length_append] at hlen
  obtain ⟨fuel, hfuel⟩ : ∃ fuel, turns = fuel + 1 + ps.length := ⟨turns - 1 - ps.length, by rw [turns]; omega⟩
  rw [List.append_assoc, Mem.holds_append] at hholds
  refine ⟨fuel, by omega, ?_⟩
  rw [printf, print, hfuel]
  cases hrender : renderInt str 0 ps args with
  | error e =>
    rw [printLoop_fault hrender rfl hholds.1 (by rw [turns]; omega) hstr]
    rfl
  | ok text =>
    have hshort := ((renderInt_eq_ok_iff (by decide)).mp hrender).2
    have hemit : ∀ sent, ({ mem := m, str := none, screen := [] } : Out).emit sent =
        { mem := m, str := none, screen := [] ++ sent } := fun sent => Out.emit_screen sent rfl
    have hnext : format + UInt32.ofNat (spell ps).length + UInt32.ofNat (f.text.length + 2) =
        format + UInt32.ofNat ((spell ps ++ (Tail.unfinished f hf).text).length + 1) := by
      rw [List.length_append, htail, UInt32.add_assoc, ← UInt32.ofNat_add]
      rfl
    rw [printLoop_pieces hrender (fun sent _ => by rw [hemit]; exact hholds.1) (by rw [turns]; omega) fun a ha =>
      spells_inMem (hstr a ha) fun _ _ => Out.keeps_of_none rfl]
    rw [hemit, printLoop_unfinished (by rw [turns]; omega) hholds.2 hshort, hnext, ok_bind, Nat.zero_add,
      List.nil_append]
    by_cases hwidth : f.width < 2 ^ 31
    · rw [if_pos hwidth, if_pos hwidth]
      cases printLoop fuel (format + UInt32.ofNat ((spell ps ++ (Tail.unfinished f hf).text).length + 1))
          (restArgs ps args) ({ mem := m, str := none, screen := text }, text.length) with
      | error e => rfl
      | ok r => simp only [ok_bind, terminate_screen]
    · rw [if_neg hwidth, if_neg hwidth]
      rfl

/-! ### The shortest rendering -/

/-- Arguments with which a piece prints least, `e` being where an empty string is. -/
def Piece.leastArgs (e : UInt32) : Piece → List UInt32
  | .directive d => if TakesArg d.letter then [if d.letter = 's'.toUInt8 then e else 0] else []
  | _ => []

/-- Those of several pieces. -/
def leastArgs (e : UInt32) (ps : List Piece) : List UInt32 := ps.flatMap (Piece.leastArgs e)

theorem justify_nil_length_le (pad : Pad) (width : ℕ) (text : List UInt8) :
    (justify pad width []).length ≤ (justify pad width text).length := by
  rw [justify_length, justify_length, List.length_nil]
  omega

/-- Nothing is shorter than a 0. -/
theorem printiText_zero_length_le {b letbase : UInt32} (hb : Base b) (hl : letbase = 97 ∨ letbase = 65)
    (i : UInt32) (sg : Bool) (width : ℕ) (pad : Pad) :
    (printiText 0 b sg width pad letbase).length ≤ (printiText i b sg width pad letbase).length := by
  obtain ⟨⟨c, rest, hdigits, -⟩, -⟩ := digits_read i sg hb hl []
  rw [List.append_nil] at hdigits
  have hzero : printiDigits 0 b sg letbase = ['0'.toUInt8] := if_pos rfl
  rw [printiText_length, printiText_length, padCount, padCount, not_negative_zero, hzero, hdigits, signText]
  simp only [List.length_append, List.length_cons, List.length_nil, Bool.false_eq_true, if_false]
  omega

theorem renderArg_least_length_le {e : UInt32} (he : e ≠ 0) (str : UInt32 → List UInt8) (d : Directive) (a : UInt32) :
    (d.renderArg (fun _ => []) (if d.letter = 's'.toUInt8 then e else 0)).length ≤ (d.renderArg str a).length := by
  have h10 : Base 10 := .inl rfl
  have h16 : Base 16 := .inr rfl
  by_cases hs : d.letter = 's'.toUInt8
  · rw [if_pos hs, Directive.renderArg, Directive.renderArg, if_pos hs, if_pos hs, if_pos he]
    exact justify_nil_length_le _ _ _
  · rw [if_neg hs, Directive.renderArg, Directive.renderArg, if_neg hs, if_neg hs]
    split_ifs
    · exact printiText_zero_length_le h10 (.inl rfl) a true _ _
    · exact printiText_zero_length_le h16 (.inl rfl) a false _ _
    · exact printiText_zero_length_le h16 (.inr rfl) a false _ _
    · exact printiText_zero_length_le h10 (.inl rfl) a false _ _
    · exact justify_nil_length_le _ _ _
    · exact justify_nil_length_le _ _ _
    · next hne _ => exact absurd rfl hne
    · next hne _ => exact absurd rfl hne

/-- With those arguments a piece prints no more than with others, and reads only the empty string. -/
theorem Piece.render_least {e : UInt32} (he : e ≠ 0) (p : Piece) {text : List UInt8} (h : p.render str args = .ok text)
    (more : List UInt32) :
    ∃ least, p.render (fun _ => []) (p.leastArgs e ++ more) = .ok least ∧ least.length ≤ text.length ∧
      p.rest (p.leastArgs e ++ more) = more ∧ ∀ a ∈ p.pointers (p.leastArgs e ++ more), a = e := by
  cases p with
  | char c hc => exact ⟨text, h, le_rfl, rfl, fun a ha => absurd ha List.not_mem_nil⟩
  | percent => exact ⟨text, h, le_rfl, rfl, fun a ha => absurd ha List.not_mem_nil⟩
  | directive d =>
    rw [Piece.render] at h
    split_ifs at h with hwidth htakes
    · cases args with
      | nil => cases h
      | cons a rest =>
        obtain rfl : d.renderArg str a = text := Except.ok.inj h
        rw [Piece.leastArgs, if_pos htakes, List.singleton_append, Piece.render, if_pos hwidth,
          if_pos htakes, Piece.rest, if_pos htakes, Piece.pointers]
        refine ⟨_, rfl, renderArg_least_length_le he str d a, rfl, fun b hb => ?_⟩
        split_ifs at hb with hs
        · have hmem := (List.mem_filter.mp hb).1
          exact List.mem_singleton.mp hmem
        · cases hb
    · obtain rfl : [] = text := Except.ok.inj h
      have hs : d.letter ≠ 's'.toUInt8 := fun hs => htakes (.inl hs)
      rw [Piece.leastArgs, if_neg htakes, List.nil_append, Piece.render, if_pos hwidth, if_neg htakes, Piece.rest,
        if_neg htakes, Piece.pointers, if_neg hs]
      exact ⟨[], rfl, le_rfl, rfl, fun a ha => absurd ha List.not_mem_nil⟩

/-- Where the pieces print without a fault, they do with those arguments. -/
theorem renderInt_least {e : UInt32} (he : e ≠ 0) {pc' : ℕ} (hpc : pc' ≤ pc) (h : renderInt str pc ps args = .ok text) :
    ∃ least, renderInt (fun _ => []) pc' ps (leastArgs e ps) = .ok least ∧
      ∀ a ∈ pointers ps (leastArgs e ps), a = e := by
  induction ps generalizing args text pc pc' with
  | nil => exact ⟨[], rfl, fun a ha => absurd ha List.not_mem_nil⟩
  | cons p ps ih =>
    obtain ⟨first, more, hfirst, hlt, hmore, -⟩ := renderInt_cons_eq_ok h
    obtain ⟨least, hleast, hlen, hrest, hptr⟩ := p.render_least he hfirst (leastArgs e ps)
    obtain ⟨more', hmore', hptrs⟩ := ih (show pc' + least.length ≤ pc + first.length by omega) hmore
    have hargs : leastArgs e (p :: ps) = p.leastArgs e ++ leastArgs e ps := List.flatMap_cons
    rw [hargs, renderInt, hleast, ok_bind, intAdd_of_lt (by omega), ok_bind, pointers, hrest, hmore']
    refine ⟨_, rfl, fun a ha => ?_⟩
    rcases List.mem_append.mp ha with ha | ha
    · exact hptr a ha
    · exact hptrs a ha

theorem zero_not_mem_format (ps : List Piece) (tail : Tail) : 0 ∉ spell ps ++ tail.text := by
  have hflags : ∀ f : Flags, 0 ∉ f.text := fun f hmem => (Flags.mem_text hmem).1 rfl
  have hpercent : (0 : UInt8) ≠ '%'.toUInt8 := by decide
  rw [List.mem_append, not_or, spell, List.mem_flatMap]
  constructor
  · rintro ⟨p, -, hp⟩
    cases p with
    | char c hc => exact hc.1 (List.mem_singleton.mp hp).symm
    | percent => exact absurd hp (by decide)
    | directive d =>
      rw [Piece.text, List.mem_cons, List.mem_append, List.mem_singleton] at hp
      exact hp.elim hpercent fun hp => hp.elim (hflags _) fun hzero => d.letter_ne hzero.symm
  · cases tail with
    | none => exact List.not_mem_nil
    | lone => decide
    | unfinished f hf => exact fun hmem => (List.mem_cons.mp hmem).elim hpercent (hflags f)

/-- The format, its 0, and a character behind it. -/
theorem holds_behind (hlen : (spell ps ++ tail.text).length + 2 < 2 ^ 32) (c : UInt8) :
    (ofBytes (spell ps ++ tail.text ++ [0] ++ [c, 0])).Holds 0 (spell ps ++ tail.text ++ [0] ++ [c, 0]) := by
  have htwo : [c, 0].length = 2 := rfl
  refine holds_ofBytes ?_
  rw [List.length_append, List.length_append, List.length_singleton, htwo]
  omega

theorem cString_ofBytes (hlen : (spell ps ++ tail.text).length + 2 < 2 ^ 32) (c : UInt8) :
    CString (ofBytes (spell ps ++ tail.text ++ [0] ++ [c, 0])) 0 (spell ps ++ tail.text) :=
  cString_iff.mpr ⟨((Mem.holds_append _ _ _ _).mp (holds_behind hlen c)).1, zero_not_mem_format ps tail, by omega⟩

/-- Where the 0 of the format is to be the end, there is the empty string. -/
theorem cString_end (hlen : (spell ps ++ tail.text).length + 2 < 2 ^ 32) (c : UInt8) :
    CString (ofBytes (spell ps ++ tail.text ++ [0] ++ [c, 0])) (UInt32.ofNat (spell ps ++ tail.text).length) [] := by
  have hholds := (cString_iff.mp (cString_ofBytes hlen c)).1
  have hend := ((Mem.holds_append _ _ _ _).mp hholds).2
  rw [UInt32.zero_add] at hend
  exact cString_iff.mpr ⟨hend, List.not_mem_nil, by decide⟩

/-- What is behind it is printed. -/
theorem printf_readsOn {f : Flags} (hf : f.text ≠ []) (hwidth : f.width < 2 ^ 31)
    (hlen : (spell ps ++ (Tail.unfinished f hf).text).length + 2 < 2 ^ 32) {c : UInt8} (hc : c ≠ '%'.toUInt8)
    (htext : renderInt (fun _ => []) 0 ps args = .ok text)
    (hstr : ∀ a ∈ pointers ps args, a = UInt32.ofNat (spell ps ++ (Tail.unfinished f hf).text).length) :
    printf (ofBytes (spell ps ++ (Tail.unfinished f hf).text ++ [0] ++ [c, 0])) 0 args =
      if c = 0 then .ok (text, text.length) else (intAdd text.length 1).map fun n => (text ++ [c], n) := by
  have hbehind := ((Mem.holds_append _ _ _ _).mp (holds_behind hlen c)).2
  rw [List.length_append, List.length_singleton] at hbehind
  have hempty : ∀ a ∈ pointers ps args,
      CString (ofBytes (spell ps ++ (Tail.unfinished f hf).text ++ [0] ++ [c, 0])) a ((fun _ => []) a) := by
    intro a ha
    rw [hstr a ha]
    exact cString_end hlen c
  obtain ⟨fuel, hfuel, hprintf⟩ := printf_unfinished (cString_ofBytes hlen c) hempty
  have hle := length_le_spell ps
  rw [List.length_append] at hlen
  obtain ⟨fuel, rfl⟩ : ∃ k, fuel = k + 2 := ⟨fuel - 2, by rw [turns] at hfuel; omega⟩
  have hfirst := hbehind.1
  have hsecond := hbehind.2.1
  rw [hprintf, htext, ok_bind, if_pos hwidth, printLoop]
  simp only [hfirst]
  by_cases hzero : c = 0
  · rw [if_pos hzero, if_pos hzero, ok_bind]
  · have hprint : ∀ m, printchar ⟨m, none, text⟩ c = ⟨m, none, text ++ [c]⟩ := fun m => rfl
    rw [if_neg hzero, if_neg hc, if_neg hzero]
    cases intAdd text.length 1 with
    | error e => rfl
    | ok n =>
      rw [ok_bind, printLoop]
      simp only [hprint, hsecond, if_true, ok_bind]
      rfl

/-- **`printf` looks beyond its format** exactly when the last directive there has no letter, and there are arguments
with which it gets there. -/
theorem printf_inside_iff (hlen : (spell ps ++ tail.text).length + 2 < 2 ^ 32) : Inside ps tail ↔ ¬ReadsOn ps tail := by
  constructor
  · rintro hinside ⟨⟨str, args, text, hrender⟩, f, hf, rfl, hwidth⟩
    have he : UInt32.ofNat (spell ps ++ (Tail.unfinished f hf).text).length ≠ 0 := by
      intro hzero
      have hnat := congrArg UInt32.toNat hzero
      rw [toNat_ofNat_of_lt (by omega), List.length_append, Tail.text, List.length_cons] at hnat
      exact absurd hnat (Nat.succ_ne_zero _)
    obtain ⟨least, hleast, hptr⟩ := renderInt_least he le_rfl hrender
    have hzero := printf_readsOn hf hwidth hlen (c := 0) (by decide) hleast hptr
    have hchar := printf_readsOn hf hwidth hlen (c := 'A'.toUInt8) (by decide) hleast hptr
    have hsame := hinside _ _ (fun _ => []) 0 _ (cString_ofBytes hlen 0) (cString_ofBytes hlen 'A'.toUInt8)
      fun a ha => by
        rw [hptr a ha]
        exact ⟨cString_end hlen 0, cString_end hlen 'A'.toUInt8⟩
    rw [if_pos rfl] at hzero
    rw [if_neg (by decide)] at hchar
    have heq := hzero.symm.trans (hsame.trans hchar)
    cases hadd : intAdd least.length 1 with
    | error e =>
      rw [hadd] at heq
      cases heq
    | ok n =>
      rw [hadd] at heq
      have hlength := congrArg (fun r => r.1.length) (Except.ok.inj heq)
      simp at hlength
  · intro hreads m m' str format args hm hm' hstr
    cases tail with
    | none =>
      have hend : Tail.none.Finished := trivial
      rw [printf_eq hend hm fun a ha => (hstr a ha).1, printf_eq hend hm' fun a ha => (hstr a ha).2]
    | lone =>
      have hend : Tail.lone.Finished := trivial
      rw [printf_eq hend hm fun a ha => (hstr a ha).1, printf_eq hend hm' fun a ha => (hstr a ha).2]
    | unfinished f hf =>
      obtain ⟨_, -, hprintf⟩ := printf_unfinished hm fun a ha => (hstr a ha).1
      obtain ⟨_, -, hprintf'⟩ := printf_unfinished hm' fun a ha => (hstr a ha).2
      rw [hprintf, hprintf']
      by_cases hwidth : f.width < 2 ^ 31
      · cases hrender : renderInt str 0 ps args with
        | error e => rfl
        | ok text => exact absurd ⟨⟨str, args, text, hrender⟩, f, hf, rfl, hwidth⟩ hreads
      · simp only [if_neg hwidth]

/-- So it is for every format. -/
theorem printf_inside (text : List UInt8) (h : 0 ∉ text) (hlen : text.length + 2 < 2 ^ 32) :
    ∃ ps tail, text = spell ps ++ tail.text ∧ (Inside ps tail ↔ ¬ReadsOn ps tail) := by
  obtain ⟨ps, tail, rfl⟩ := exists_format text h
  exact ⟨ps, tail, rfl, printf_inside_iff hlen⟩

/-- A width at the end. -/
theorem printf_inside_width : ∃ ps tail, ['%'.toUInt8, '5'.toUInt8] = spell ps ++ tail.text ∧
    (Inside ps tail ↔ ¬ReadsOn ps tail) :=
  printf_inside _ (by decide) (by decide)

end MoltarOS.Libc
