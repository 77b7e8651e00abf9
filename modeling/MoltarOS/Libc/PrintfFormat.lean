import MoltarOS.Libc.PrintfDigits

/-!
# The formats of `printf`

A format is a list of pieces: characters, `%%`, and directives `%`, `-`, zeros, a width, and a letter. Any other text
without a 0 is pieces and then a single `%` or a directive without its letter. What the pieces stand for is
their rendering.

## What is proved

* `renderInt_eq_ok_iff` — an `int` counts what the pieces print as long as it is fewer than `2 ^ 31` characters.
* `printLoop_pieces` — `print` sends the rendering of the pieces and counts it.
* `printLoop_fault` — it has a fault where the rendering has one.
-/

namespace MoltarOS.Libc

open MoltarOS.Lib MoltarOS.Lib.Word

/-! ### Formats -/

/-- What stands between the `%` and the letter. -/
structure Flags where
  /-- Whether there is a `-`. -/
  minus : Bool
  /-- The zeros that follow. -/
  zeros : ℕ
  /-- The width. -/
  digits : List UInt8
  digits_ok : ∀ c ∈ digits, IsDigit c
  /-- The zeros are not part of it. -/
  head_ok : ∀ c ∈ digits.head?, c ≠ '0'.toUInt8

namespace Flags

variable (f : Flags)

/-- The flags as they are written. -/
def text : List UInt8 := (if f.minus then ['-'.toUInt8] else []) ++ (List.replicate f.zeros '0'.toUInt8 ++ f.digits)

/-- `pad`. -/
def pad : Pad := ⟨f.minus, decide (0 < f.zeros)⟩

/-- The width and further digits of it. -/
def widthFrom (width : ℕ) (digits : List UInt8) : ℕ := digits.foldl (fun w c => w * 10 + (c - '0'.toUInt8).toNat) width

/-- `width`. -/
def width : ℕ := widthFrom 0 f.digits

end Flags

/-- A directive after its `%`. -/
structure Directive extends Flags where
  /-- What is to be printed. -/
  letter : UInt8
  letter_ne : letter ≠ 0
  letter_ok : ¬IsDigit letter
  /-- Else it is a `%%`, or the `-` is no letter. -/
  plain_ok : toFlags.text = [] → letter ≠ '%'.toUInt8 ∧ letter ≠ '-'.toUInt8

/-- A piece of a format. -/
inductive Piece where
  /-- A character that stands for itself. -/
  | char (c : UInt8) (h : c ≠ 0 ∧ c ≠ '%'.toUInt8)
  /-- `%%`. -/
  | percent
  | directive (d : Directive)

/-- The piece as it is written. -/
def Piece.text : Piece → List UInt8
  | .char c _ => [c]
  | .percent => ['%'.toUInt8, '%'.toUInt8]
  | .directive d => '%'.toUInt8 :: (d.toFlags.text ++ [d.letter])

/-- The pieces as they are written. -/
def spell (ps : List Piece) : List UInt8 := ps.flatMap Piece.text

theorem spell_cons (p : Piece) (ps : List Piece) : spell (p :: ps) = p.text ++ spell ps := List.flatMap_cons

/-- A directive without flags. -/
def plain (letter : UInt8) (h : letter ≠ 0 ∧ ¬IsDigit letter ∧ letter ≠ '%'.toUInt8 ∧ letter ≠ '-'.toUInt8) : Piece :=
  .directive ⟨⟨false, 0, [], List.forall_mem_nil _, fun _ hc => by cases hc⟩, letter, h.1, h.2.1, fun _ => h.2.2⟩

/-- What may follow the pieces. -/
inductive Tail where
  | none
  /-- A single `%`. -/
  | lone
  /-- A directive without its letter. -/
  | unfinished (f : Flags) (h : f.text ≠ [])

/-- The tail as it is written. -/
def Tail.text : Tail → List UInt8
  | .none => []
  | .lone => ['%'.toUInt8]
  | .unfinished f _ => '%'.toUInt8 :: f.text

/-! ### Rendering -/

/-- The letters that take an argument. -/
def TakesArg (letter : UInt8) : Prop :=
  letter = 's'.toUInt8 ∨ letter = 'd'.toUInt8 ∨ letter = 'x'.toUInt8 ∨ letter = 'X'.toUInt8 ∨ letter = 'u'.toUInt8 ∨
    letter = 'c'.toUInt8

instance : DecidablePred TakesArg := fun _ => inferInstanceAs (Decidable (_ ∨ _ ∨ _ ∨ _ ∨ _ ∨ _))

/-- What `%s` prints for NULL. -/
def nullText : List UInt8 := "(null)".toList.map Char.toUInt8

/-- What a directive prints of its argument, `str` being the strings at the pointers. -/
def Directive.renderArg (str : UInt32 → List UInt8) (d : Directive) (a : UInt32) : List UInt8 :=
  if d.letter = 's'.toUInt8 then justify d.pad d.width (if a ≠ 0 then str a else nullText)
  else if d.letter = 'd'.toUInt8 then printiText a 10 true d.width d.pad 97
  else if d.letter = 'x'.toUInt8 then printiText a 16 false d.width d.pad 97
  else if d.letter = 'X'.toUInt8 then printiText a 16 false d.width d.pad 65
  else if d.letter = 'u'.toUInt8 then printiText a 10 false d.width d.pad 97
  else justify d.pad d.width (if a.toUInt8 = 0 then [] else [a.toUInt8])

/-- What a piece prints. -/
def Piece.render (str : UInt32 → List UInt8) (args : List UInt32) : Piece → Except Fault (List UInt8)
  | .char c _ => .ok [c]
  | .percent => .ok ['%'.toUInt8]
  | .directive d =>
    if d.width < 2 ^ 31 then
      if TakesArg d.letter then do
        let (a, _) ← vaArg args
        .ok (d.renderArg str a)
      else .ok []
    else .error .width

/-- The arguments after the piece. -/
def Piece.rest (args : List UInt32) : Piece → List UInt32
  | .directive d => if TakesArg d.letter then args.tail else args
  | _ => args

/-- The string that the piece reads. -/
def Piece.pointers (args : List UInt32) : Piece → List UInt32
  | .directive d => if d.letter = 's'.toUInt8 then args.head?.toList.filter (· ≠ 0) else []
  | _ => []

/-- What the pieces print. -/
def render (str : UInt32 → List UInt8) : List Piece → List UInt32 → Except Fault (List UInt8)
  | [], _ => .ok []
  | p :: ps, args => do
    let text ← p.render str args
    let more ← render str ps (p.rest args)
    .ok (text ++ more)

/-- What they print when `pc` characters have been counted, as long as an `int` counts them. -/
def renderInt (str : UInt32 → List UInt8) : ℕ → List Piece → List UInt32 → Except Fault (List UInt8)
  | _, [], _ => .ok []
  | pc, p :: ps, args => do
    let text ← p.render str args
    let pc ← intAdd pc text.length
    let more ← renderInt str pc ps (p.rest args)
    .ok (text ++ more)

/-- The arguments after the pieces. -/
def restArgs : List Piece → List UInt32 → List UInt32
  | [], args => args
  | p :: ps, args => restArgs ps (p.rest args)

/-- The strings that the pieces read. -/
def pointers : List Piece → List UInt32 → List UInt32
  | [], _ => []
  | p :: ps, args => p.pointers args ++ pointers ps (p.rest args)

theorem renderInt_cons_eq_ok {str : UInt32 → List UInt8} {args : List UInt32} {p : Piece} {ps : List Piece}
    {text : List UInt8} {pc : ℕ} (h : renderInt str pc (p :: ps) args = .ok text) :
    ∃ first more, p.render str args = .ok first ∧ pc + first.length < 2 ^ 31 ∧
      renderInt str (pc + first.length) ps (p.rest args) = .ok more ∧ text = first ++ more := by
  obtain ⟨first, hfirst, hrest⟩ := bind_eq_ok h
  obtain ⟨next, hnext, hrest⟩ := bind_eq_ok hrest
  obtain ⟨more, hmore, htext⟩ := bind_eq_ok hrest
  obtain ⟨hadd, hlt⟩ := intAdd_eq_ok hnext
  exact ⟨first, more, hfirst, hlt, hadd ▸ hmore, (Except.ok.inj htext).symm⟩

/-- **An `int` counts the characters** if there are fewer than `2 ^ 31`. -/
theorem renderInt_eq_ok_iff {str : UInt32 → List UInt8} {args : List UInt32} {ps : List Piece} {text : List UInt8}
    {pc : ℕ} (hpc : pc < 2 ^ 31) :
    renderInt str pc ps args = .ok text ↔ render str ps args = .ok text ∧ pc + text.length < 2 ^ 31 := by
  induction ps generalizing args text pc with
  | nil =>
    rw [renderInt, render]
    constructor
    · intro h
      obtain rfl := Except.ok.inj h
      exact ⟨rfl, hpc⟩
    · rintro ⟨h, -⟩
      exact h
  | cons p ps ih =>
    constructor
    · intro h
      obtain ⟨first, more, hfirst, hlt, hmore, rfl⟩ := renderInt_cons_eq_ok h
      obtain ⟨hmore, hlen⟩ := (ih hlt).mp hmore
      rw [render, hfirst, ok_bind, hmore, ok_bind, List.length_append, ← Nat.add_assoc]
      exact ⟨rfl, hlen⟩
    · rintro ⟨h, hlen⟩
      obtain ⟨first, hfirst, h⟩ := bind_eq_ok h
      obtain ⟨more, hmore, h⟩ := bind_eq_ok h
      obtain rfl : first ++ more = text := Except.ok.inj h
      rw [List.length_append, ← Nat.add_assoc] at hlen
      have hlt : pc + first.length < 2 ^ 31 := by omega
      rw [renderInt, hfirst, ok_bind, intAdd_of_lt hlt, ok_bind, (ih hlt).mpr ⟨hmore, hlen⟩, ok_bind]

/-! ### Scanning -/

section Scan

variable {m : Mem} {format : UInt32}

theorem zerosLoop_eq {z : ℕ} {c : UInt8} (hc : c ≠ '0'.toUInt8) {rest : List UInt8}
    (h : m.Holds format (List.replicate z '0'.toUInt8 ++ c :: rest)) (pad : Pad) {fuel : ℕ} (hfuel : z < fuel) :
    zerosLoop m fuel format pad = .ok (format + UInt32.ofNat z, { pad with zero := pad.zero || decide (0 < z) }) := by
  induction fuel generalizing format z pad with
  | zero => omega
  | succ fuel ih =>
    rw [zerosLoop]
    cases z with
    | zero =>
      have hformat : format + UInt32.ofNat 0 = format := UInt32.add_zero format
      rw [if_neg fun heq => hc (h.1.symm.trans heq), hformat, decide_eq_false (Nat.lt_irrefl 0), Bool.or_false]
    | succ z =>
      rw [if_pos h.1, ih h.2 _ (by omega), Mem.add_one_add_ofNat, decide_eq_true (Nat.succ_pos z),
        Bool.or_true, Bool.true_or]

theorem le_widthFrom (w : ℕ) (digits : List UInt8) : w ≤ Flags.widthFrom w digits := by
  induction digits generalizing w with
  | nil => exact Nat.le_refl w
  | cons c digits ih => exact Nat.le_trans (by omega) (ih (w * 10 + (c - '0'.toUInt8).toNat))

theorem widthLoop_eq {digits : List UInt8} (hdigits : ∀ c ∈ digits, IsDigit c) {c : UInt8} (hc : ¬IsDigit c)
    (h : m.Holds format (digits ++ [c])) {w : ℕ} (hw : w < 2 ^ 31) {fuel : ℕ} (hfuel : digits.length < fuel) :
    widthLoop m fuel format w =
      if Flags.widthFrom w digits < 2 ^ 31 then .ok (format + UInt32.ofNat digits.length, Flags.widthFrom w digits)
      else .error .width := by
  induction fuel generalizing format digits w with
  | zero => omega
  | succ fuel ih =>
    rw [widthLoop]
    cases digits with
    | nil =>
      have hformat : format + UInt32.ofNat 0 = format := UInt32.add_zero format
      rw [if_neg (by rw [show m format = c from h.1]; exact hc), List.length_nil, hformat]
      exact (if_pos hw).symm
    | cons d digits =>
      have hd : m format = d := h.1
      rw [hd, if_pos (hdigits d List.mem_cons_self)]
      simp only []
      by_cases hnext : w * 10 + (d - '0'.toUInt8).toNat < 2 ^ 31
      · rw [if_pos hnext, ih (fun c hc => hdigits c (List.mem_cons_of_mem d hc)) h.2 hnext
          (by rw [List.length_cons] at hfuel; omega), Mem.add_one_add_ofNat]
        rfl
      · have hle := le_widthFrom (w * 10 + (d - '0'.toUInt8).toNat) digits
        rw [if_neg hnext, if_neg]
        exact fun hlt => hnext (Nat.lt_of_le_of_lt hle hlt)

theorem not_isDigit_minus : ¬IsDigit '-'.toUInt8 := by decide

theorem isDigit_zero : IsDigit '0'.toUInt8 := by decide

/-- The zeros and the width are read up to a letter. -/
theorem zeros_width_eq (f : Flags) {c : UInt8} (hc : ¬IsDigit c)
    (h : m.Holds format (List.replicate f.zeros '0'.toUInt8 ++ (f.digits ++ [c]))) (hz : f.zeros < turns)
    (hd : f.digits.length < turns) (right : Bool) :
    (do
      let (format, pad) ← zerosLoop m turns format ⟨right, false⟩
      let (format, width) ← widthLoop m turns format 0
      .ok (format, pad, width) : Except Fault (UInt32 × Pad × ℕ)) =
      if f.width < 2 ^ 31 then
        .ok (format + UInt32.ofNat (f.zeros + f.digits.length), ⟨right, decide (0 < f.zeros)⟩, f.width)
      else .error .width := by
  obtain ⟨d, rest, hcons, hd0⟩ : ∃ d rest, f.digits ++ [c] = d :: rest ∧ d ≠ '0'.toUInt8 := by
    cases hdigits : f.digits with
    | nil => exact ⟨c, [], rfl, fun heq => hc (heq ▸ isDigit_zero)⟩
    | cons d digits => exact ⟨d, digits ++ [c], rfl, f.head_ok d (by rw [hdigits]; rfl)⟩
  have hzeros := zerosLoop_eq hd0 (hcons ▸ h) ⟨right, false⟩ hz
  have hrest := ((m.holds_append _ _ _).mp h).2
  rw [List.length_replicate] at hrest
  have hwidth := widthLoop_eq f.digits_ok hc hrest (by decide : 0 < 2 ^ 31) hd
  have hend : format + UInt32.ofNat f.zeros + UInt32.ofNat f.digits.length =
      format + UInt32.ofNat (f.zeros + f.digits.length) := by
    rw [UInt32.ofNat_add]
    grind
  rw [hzeros, ok_bind]
  simp only [hwidth, hend, Bool.false_or]
  rw [Flags.width]
  split <;> rfl

/-- The flags are read up to a letter. -/
theorem scanFlags_eq (f : Flags) {c : UInt8} (hc : ¬IsDigit c) (hplain : f.text = [] → c ≠ '-'.toUInt8)
    (h : m.Holds format (f.text ++ [c])) (hlen : f.text.length < turns) :
    scanFlags m format =
      if f.width < 2 ^ 31 then .ok (format + UInt32.ofNat f.text.length, f.pad, f.width) else .error .width := by
  have hlength : f.text.length = (if f.minus then 1 else 0) + (f.zeros + f.digits.length) := by
    rw [Flags.text, List.length_append, List.length_append, List.length_replicate]
    split <;> rfl
  rw [scanFlags, hlength, Flags.pad]
  rw [Flags.text, List.append_assoc, List.append_assoc] at h
  cases hminus : f.minus with
  | true =>
    rw [hminus] at h hlength
    have hend : format + 1 + UInt32.ofNat (f.zeros + f.digits.length) =
        format + UInt32.ofNat (1 + (f.zeros + f.digits.length)) := by
      rw [Mem.add_one_add_ofNat, Nat.add_comm]
    rw [if_pos h.1, if_pos rfl, ← hend]
    exact zeros_width_eq f hc h.2 (by rw [if_pos rfl] at hlength; omega) (by rw [if_pos rfl] at hlength; omega) true
  | false =>
    rw [hminus] at h hlength
    have hne : m format ≠ '-'.toUInt8 := by
      intro heq
      rcases Nat.eq_zero_or_pos f.zeros with hz | hz
      · cases hd : f.digits with
        | nil =>
          have hc' := hplain (by simp [Flags.text, hminus, hz, hd])
          rw [hz, hd] at h
          exact hc' (h.1.symm.trans heq)
        | cons d digits =>
          have hdigit := f.digits_ok d (by rw [hd]; exact List.mem_cons_self)
          rw [hz, hd] at h
          exact not_isDigit_minus (h.1.symm.trans heq ▸ hdigit)
      · obtain ⟨z, hz'⟩ := Nat.exists_eq_succ_of_ne_zero hz.ne'
        rw [hz'] at h
        exact absurd (h.1.symm.trans heq) (by decide)
    rw [if_neg hne, if_neg Bool.false_ne_true, Nat.zero_add]
    exact zeros_width_eq f hc h (by rw [if_neg Bool.false_ne_true] at hlength; omega)
      (by rw [if_neg Bool.false_ne_true] at hlength; omega) false

end Scan

/-! ### Printing the pieces -/

variable {str : UInt32 → List UInt8} {args : List UInt32} {out : Out}

theorem printArg_other {letter : UInt8} (h : ¬TakesArg letter) (width : ℕ) (pad : Pad) :
    printArg letter args width pad out = .ok (args, out, 0) := by
  simp only [TakesArg, not_or] at h
  rw [printArg, if_neg h.1, if_neg h.2.1, if_neg h.2.2.1, if_neg h.2.2.2.1, if_neg h.2.2.2.2.1, if_neg h.2.2.2.2.2]

theorem printArg_nil {letter : UInt8} (h : TakesArg letter) (width : ℕ) (pad : Pad) :
    printArg letter [] width pad out = .error .vaArg := by
  rcases h with rfl | rfl | rfl | rfl | rfl | rfl <;> rfl

/-- A branch of `print` for a number. -/
theorem vaArg_printi {a b letbase : UInt32} (rest : List UInt32) (sg : Bool) (width : ℕ) (pad : Pad) (hb : Base b)
    (hl : letbase = 97 ∨ letbase = 65) :
    (do
      let (i, args) ← vaArg (a :: rest)
      let r ← printi i b sg width pad letbase out
      .ok (args, r) : Except Fault (List UInt32 × Out × ℕ)) =
    (counted out 0 (printiText a b sg width pad letbase) >>= fun r => .ok (rest, r)) := by
  rw [vaArg, ok_bind]
  simp only [printi_eq hb hl]

/-- A branch of `print` for a string. -/
theorem prints_bind {string : Out → ℕ → UInt8} {text : List UInt8} {width : ℕ} {pad : Pad} (rest : List UInt32)
    (h : Spells string out (justify pad width text).length text) :
    (do
      let r ← prints string width pad out
      .ok (rest, r) : Except Fault (List UInt32 × Out × ℕ)) =
    (counted out 0 (justify pad width text) >>= fun r => .ok (rest, r)) := by
  rw [prints_eq h]

/-- A directive that takes an argument prints it. -/
theorem printArg_cons {d : Directive} (h : TakesArg d.letter) {a : UInt32} {rest : List UInt32}
    (hstr : d.letter = 's'.toUInt8 → a ≠ 0 → Spells (inMem a) out (d.renderArg str a).length (str a)) :
    printArg d.letter (a :: rest) d.width d.pad out =
      (counted out 0 (d.renderArg str a) >>= fun r => .ok (rest, r)) := by
  rw [Directive.renderArg] at hstr ⊢
  rw [printArg]
  by_cases hs : d.letter = 's'.toUInt8
  · rw [if_pos hs] at hstr
    rw [if_pos hs, if_pos hs, vaArg, ok_bind]
    by_cases ha : a ≠ 0
    · have hspells := hstr hs ha
      rw [if_pos ha] at hspells ⊢
      simp only [if_pos ha]
      exact prints_bind rest hspells
    · rw [if_neg ha]
      simp only [if_neg ha]
      exact prints_bind rest (spells_onStack (by decide) (by decide))
  · rw [if_neg hs, if_neg hs]
    by_cases hd : d.letter = 'd'.toUInt8
    · rw [if_pos hd, if_pos hd]
      exact vaArg_printi rest true d.width d.pad (.inl rfl) (.inl rfl)
    rw [if_neg hd, if_neg hd]
    by_cases hx : d.letter = 'x'.toUInt8
    · rw [if_pos hx, if_pos hx]
      exact vaArg_printi rest false d.width d.pad (.inr rfl) (.inl rfl)
    rw [if_neg hx, if_neg hx]
    by_cases hX : d.letter = 'X'.toUInt8
    · rw [if_pos hX, if_pos hX]
      exact vaArg_printi rest false d.width d.pad (.inr rfl) (.inr rfl)
    rw [if_neg hX, if_neg hX]
    by_cases hu : d.letter = 'u'.toUInt8
    · rw [if_pos hu, if_pos hu]
      exact vaArg_printi rest false d.width d.pad (.inl rfl) (.inl rfl)
    have hc : d.letter = 'c'.toUInt8 := by
      simpa only [TakesArg, hs, hd, hx, hX, hu, false_or] using h
    rw [if_neg hu, if_neg hu, if_pos hc, vaArg, ok_bind]
    refine prints_bind rest ?_
    by_cases ha : a.toUInt8 = 0
    · rw [if_pos ha, ha]
      exact spells_onStack List.not_mem_nil (by decide)
    · rw [if_neg ha]
      exact spells_onStack (fun hmem => ha (List.mem_singleton.mp hmem).symm)
        (Nat.lt_of_le_of_lt (Nat.le_refl 1) (by decide))

/-- Only a `-` and digits are flags. -/
theorem Flags.mem_text {f : Flags} {c : UInt8} (h : c ∈ f.text) : c ≠ 0 ∧ c ≠ '%'.toUInt8 := by
  have hdigit : ∀ c, IsDigit c → c ≠ 0 ∧ c ≠ '%'.toUInt8 := fun c hc =>
    ⟨fun heq => absurd (heq ▸ hc) (by decide), fun heq => absurd (heq ▸ hc) (by decide)⟩
  rw [Flags.text, List.mem_append, List.mem_append] at h
  rcases h with h | h | h
  · cases hminus : f.minus with
    | true =>
      rw [hminus, if_pos rfl, List.mem_singleton] at h
      rw [h]
      decide
    | false =>
      rw [hminus] at h
      cases h
  · rw [List.eq_of_mem_replicate h]
    decide
  · exact hdigit c (f.digits_ok c h)

/-- What comes after the `%` of a directive, its letter included or the 0 in its place, begins with no 0 and no `%`. -/
theorem Flags.first {f : Flags} {letter : UInt8} (h : f.text = [] → letter ≠ 0 ∧ letter ≠ '%'.toUInt8) :
    ∃ c rest, f.text ++ [letter] = c :: rest ∧ c ≠ 0 ∧ c ≠ '%'.toUInt8 := by
  cases htext : f.text with
  | nil => exact ⟨letter, [], rfl, h htext⟩
  | cons c rest => exact ⟨c, rest ++ [letter], rfl, Flags.mem_text (f := f) (htext ▸ List.mem_cons_self)⟩

variable {format : UInt32} {pc fuel : ℕ}

/-- At a directive, the flags are read and then what comes after them. -/
theorem printLoop_percent {f : Flags} {letter : UInt8} (h : out.mem.Holds format ('%'.toUInt8 :: (f.text ++ [letter])))
    (hlen : f.text.length < turns) (hletter : ¬IsDigit letter)
    (hplain : f.text = [] → letter ≠ 0 ∧ letter ≠ '%'.toUInt8 ∧ letter ≠ '-'.toUInt8) :
    printLoop (fuel + 1) format args (out, pc) =
      if f.width < 2 ^ 31 then do
        let (args, out, n) ← printArg letter args f.width f.pad out
        let pc ← intAdd pc n
        printLoop fuel (format + UInt32.ofNat (f.text.length + 2)) args (out, pc)
      else .error .width := by
  have hpercent : out.mem format = '%'.toUInt8 := h.1
  obtain ⟨c, rest, hfirst, hc0, hcp⟩ := Flags.first fun hnil => (hplain hnil).imp_right And.left
  have hc : out.mem (format + 1) = c := by
    have hrest := h.2
    rw [hfirst] at hrest
    exact hrest.1
  have hend : out.mem (format + 1 + UInt32.ofNat f.text.length) = letter := (((out.mem.holds_append _ _ _).mp h.2).2).1
  have hnext : format + 1 + UInt32.ofNat f.text.length + 1 = format + UInt32.ofNat (f.text.length + 2) := by
    rw [Mem.add_one_add_ofNat, ofNat_add_one (f.text.length + 1), UInt32.add_assoc]
  have hscan := scanFlags_eq f hletter (fun hnil => (hplain hnil).2.2) h.2 hlen
  rw [printLoop, hpercent, if_neg (by decide), if_pos rfl]
  simp only [hc, if_neg hc0, if_neg hcp, hscan]
  by_cases hwidth : f.width < 2 ^ 31
  · rw [if_pos hwidth, if_pos hwidth, ok_bind]
    simp only [hend, hnext]
  · rw [if_neg hwidth, if_neg hwidth]
    rfl

/-- **One piece**: `print` sends what it stands for, and goes on behind it. -/
theorem printLoop_piece (p : Piece) (h : out.mem.Holds format p.text) (hlen : p.text.length < turns)
    (hstr : ∀ text, p.render str args = .ok text → ∀ a ∈ p.pointers args, Spells (inMem a) out text.length (str a)) :
    printLoop (fuel + 1) format args (out, pc) = (do
      let text ← p.render str args
      let pc ← intAdd pc text.length
      printLoop fuel (format + UInt32.ofNat p.text.length) (p.rest args) (out.emit text, pc)) := by
  cases p with
  | char c hc =>
    have hformat : out.mem format = c := h.1
    rw [printLoop, hformat, if_neg hc.1, if_neg hc.2]
    rfl
  | percent =>
    have hfirst : out.mem format = '%'.toUInt8 := h.1
    have hsecond : out.mem (format + 1) = '%'.toUInt8 := h.2.1
    have hnext : format + 1 + 1 = format + UInt32.ofNat 2 := UInt32.add_assoc format 1 1
    rw [printLoop, hfirst, if_neg (by decide), if_pos rfl]
    simp only [hsecond]
    rw [if_neg (by decide), if_pos trivial, hnext]
    rfl
  | directive d =>
    have hlength : (Piece.directive d).text.length = d.toFlags.text.length + 2 := by
      rw [Piece.text, List.length_cons, List.length_append, List.length_singleton]
    rw [hlength] at hlen ⊢
    rw [printLoop_percent h (by omega) d.letter_ok fun hnil => ⟨d.letter_ne, d.plain_ok hnil⟩]
    rw [Piece.render] at hstr ⊢
    by_cases hwidth : d.width < 2 ^ 31
    · rw [if_pos hwidth] at hstr ⊢
      rw [if_pos hwidth, Piece.rest]
      by_cases htakes : TakesArg d.letter
      · rw [if_pos htakes] at hstr ⊢
        rw [if_pos htakes]
        cases args with
        | nil =>
          rw [printArg_nil htakes]
          rfl
        | cons a rest =>
          rw [printArg_cons htakes fun hs ha =>
            hstr (d.renderArg str a) rfl a (by rw [Piece.pointers, if_pos hs]; simpa using ha)]
          rw [vaArg, ok_bind, ok_bind, ← counted_bind out pc (d.renderArg str a)]
          cases counted out 0 (d.renderArg str a) <;> rfl
      · rw [if_neg htakes, if_neg htakes, printArg_other htakes]
        rfl
    · rw [if_neg hwidth, if_neg hwidth]
      rfl

/-- **All pieces**: `print` sends their rendering, as long as what it sends does not go to what it reads. -/
theorem printLoop_pieces {ps : List Piece} {text : List UInt8} (h : renderInt str pc ps args = .ok text)
    (hformat : ∀ sent : List UInt8, sent.length ≤ text.length → (out.emit sent).mem.Holds format (spell ps))
    (hlen : (spell ps).length < turns) (hstr : ∀ a ∈ pointers ps args, Spells (inMem a) out text.length (str a)) :
    printLoop (fuel + ps.length) format args (out, pc) =
      printLoop fuel (format + UInt32.ofNat (spell ps).length) (restArgs ps args)
        (out.emit text, pc + text.length) := by
  induction ps generalizing out format args text pc with
  | nil =>
    obtain rfl : [] = text := Except.ok.inj h
    have hend : format + UInt32.ofNat 0 = format := UInt32.add_zero format
    rw [spell, List.flatMap_nil, List.length_nil, List.length_nil, hend]
    rfl
  | cons p ps ih =>
    obtain ⟨first, more, hfirst, hlt, hmore, rfl⟩ := renderInt_cons_eq_ok h
    rw [spell_cons, List.length_append] at hlen ⊢
    rw [List.length_append] at hformat hstr
    have hholds : ∀ sent : List UInt8, sent.length ≤ first.length + more.length →
        (out.emit sent).mem.Holds format p.text ∧
          (out.emit sent).mem.Holds (format + UInt32.ofNat p.text.length) (spell ps) := fun sent hsent => by
      rw [← Mem.holds_append, ← spell_cons]
      exact hformat sent hsent
    have hnext : format + UInt32.ofNat p.text.length + UInt32.ofNat (spell ps).length =
        format + UInt32.ofNat (p.text.length + (spell ps).length) := by
      rw [UInt32.ofNat_add, UInt32.add_assoc]
    have hpiece : out.mem.Holds format p.text := (hholds [] (Nat.zero_le _)).1
    rw [List.length_cons, ← Nat.add_assoc, printLoop_piece p hpiece (by omega) fun text htext a ha => ?_,
      hfirst, ok_bind, intAdd_of_lt hlt, ok_bind]
    · rw [ih hmore (fun sent hsent => ?_) (by omega) fun a ha => ?_]
      · rw [Out.emit_append, List.length_append, Nat.add_assoc, ← hnext]
        rfl
      · rw [← Out.emit_append]
        exact (hholds (first ++ sent) (by rw [List.length_append]; omega)).2
      · exact (hstr a (List.mem_append_right _ ha)).emit
    · obtain rfl : first = text := Except.ok.inj (hfirst.symm.trans htext)
      exact (hstr a (List.mem_append_left _ ha)).mono (Nat.le_add_right _ _)

/-- A fault of the rendering is one of `print`. -/
theorem printLoop_fault {ps : List Piece} {e : Fault} (h : renderInt str pc ps args = .error e) (hout : out.str = none)
    (hformat : out.mem.Holds format (spell ps)) (hlen : (spell ps).length < turns)
    (hstr : ∀ a ∈ pointers ps args, CString out.mem a (str a)) :
    printLoop (fuel + ps.length) format args (out, pc) = .error e := by
  induction ps generalizing out format args pc with
  | nil => cases h
  | cons p ps ih =>
    rw [spell_cons] at hformat
    rw [spell_cons, List.length_append] at hlen
    obtain ⟨hfirst, hrest⟩ := (Mem.holds_append _ _ _ _).mp hformat
    rw [List.length_cons, ← Nat.add_assoc, printLoop_piece p hfirst (by omega) fun text _ a ha =>
      spells_inMem (hstr a (List.mem_append_left _ ha)) fun _ _ => Out.keeps_of_none hout]
    rw [renderInt] at h
    cases hp : p.render str args with
    | error e' =>
      rw [hp] at h
      obtain rfl : e' = e := Except.error.inj h
      rfl
    | ok text =>
      rw [hp, ok_bind] at h
      rw [ok_bind]
      cases hpc : intAdd pc text.length with
      | error e' =>
        rw [hpc] at h
        obtain rfl : e' = e := Except.error.inj h
        rfl
      | ok pc' =>
      rw [hpc, ok_bind] at h
      have hmore : renderInt str pc' ps (p.rest args) = .error e := by
        cases hps : renderInt str pc' ps (p.rest args) with
        | error e' =>
          rw [hps] at h
          exact h
        | ok more =>
          rw [hps] at h
          cases h
      have hemit : out.emit text = { out with screen := out.screen ++ text } := Out.emit_screen text hout
      rw [ok_bind, hemit]
      exact ih hmore hout hrest (by omega) fun a ha => hstr a (List.mem_append_right _ ha)

end MoltarOS.Libc
