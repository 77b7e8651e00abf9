import MoltarOS.Lib.Numeral
import MoltarOS.Libc.Printf

/-!
# The numbers of `printf`

What `prints` and `printi` send, as texts.

## What is proved

* `print_buf` has room for every `int` in base 10 and base 16, its sign and the 0.
* `printi_reads_iff` — what `printi` sends, read back as a number of any size, is the value of the word; except when
  it is padded to the right and with zeros at that, which multiplies it by a power of the base.
-/

namespace MoltarOS.Libc

open MoltarOS.Lib MoltarOS.Lib.Word

/-! ### Strings that are read while characters are sent -/

/-- For the next `n` characters, `string` reads as `text` and a 0. -/
structure Spells (string : Out → ℕ → UInt8) (out : Out) (n : ℕ) (text : List UInt8) : Prop where
  /-- The characters and the 0. -/
  char : ∀ sent : List UInt8, sent.length ≤ n → ∀ i ≤ text.length, string (out.emit sent) i = text.getD i 0
  /-- The 0 is the first. -/
  nul : 0 ∉ text
  /-- It comes within so many bytes. -/
  length : text.length < turns

variable {string : Out → ℕ → UInt8} {out : Out} {n : ℕ} {text : List UInt8}

theorem Spells.emit {sent : List UInt8} (h : Spells string out (sent.length + n) text) :
    Spells string (out.emit sent) n text where
  char more hmore i hi := by
    rw [← Out.emit_append]
    exact h.char _ (by rw [List.length_append]; omega) i hi
  nul := h.nul
  length := h.length

theorem Spells.mono {n' : ℕ} (h : Spells string out n text) (hle : n' ≤ n) : Spells string out n' text :=
  ⟨fun sent hsent => h.char sent (hsent.trans hle), h.nul, h.length⟩

theorem Spells.eq_zero_iff (h : Spells string out n text) {i : ℕ} (hi : i ≤ text.length) :
    string out i = 0 ↔ i = text.length := by
  rw [show string out i = text.getD i 0 from h.char [] (Nat.zero_le n) i hi]
  constructor
  · intro hzero
    by_contra hne
    have hlt : i < text.length := by omega
    rw [List.getD_eq_getElem _ _ hlt] at hzero
    exact h.nul (hzero ▸ List.getElem_mem hlt)
  · rintro rfl
    exact List.getD_eq_default _ _ le_rfl

/-- A string of the function's own does not change. -/
theorem spells_onStack {rest : List UInt8} (hnul : 0 ∉ text) (hlen : text.length < turns) :
    Spells (onStack (text ++ 0 :: rest)) out n text where
  char sent _ i hi := by
    rw [onStack]
    by_cases hlt : i < text.length
    · exact List.getD_append _ _ _ _ hlt
    · obtain rfl : i = text.length := by omega
      rw [List.getD_append_right _ _ _ _ le_rfl, Nat.sub_self, List.getD_cons_zero, List.getD_eq_default _ _ le_rfl]
  nul := hnul
  length := hlen

/-- Nor does one that the characters do not go to. -/
theorem spells_inMem {s : UInt32} (h : CString out.mem s text)
    (hkeeps : ∀ i ≤ text.length, out.Keeps n (s + UInt32.ofNat i)) :
    Spells (inMem s) out n text where
  char sent hsent i hi := by
    rw [inMem, ((hkeeps i hi).mono hsent).emit_mem]
    exact h.char i hi
  nul := h.nul
  length := h.length

/-! ### `prints` -/

/-- The result of a loop that sends `sent` and counts. -/
def counted (out : Out) (pc : ℕ) (sent : List UInt8) : Except Fault (Out × ℕ) :=
  if pc + sent.length < 2 ^ 31 then .ok (out.emit sent, pc + sent.length) else .error .count

theorem counted_nil {pc : ℕ} (hpc : pc < 2 ^ 31) : counted out pc [] = .ok (out, pc) := if_pos hpc

/-- One character more, sent first. -/
theorem counted_cons (out : Out) (pc : ℕ) (c : UInt8) (sent : List UInt8) :
    counted out pc (c :: sent) = (intAdd pc 1 >>= fun pc => counted (printchar out c) pc sent) := by
  have hlen : pc + (c :: sent).length = pc + 1 + sent.length := by
    rw [List.length_cons]
    omega
  rw [counted, hlen]
  by_cases hpc : pc + 1 < 2 ^ 31
  · rw [intAdd_of_lt hpc, ok_bind]
    rfl
  · rw [intAdd_of_le (Nat.not_lt.mp hpc), if_neg (by omega)]
    rfl

/-- More is sent afterwards. -/
theorem counted_append (out : Out) (pc : ℕ) (sent sent' : List UInt8) :
    counted out pc (sent ++ sent') = (counted out pc sent >>= fun s => counted s.1 s.2 sent') := by
  have hlen : pc + (sent ++ sent').length = pc + sent.length + sent'.length := by
    rw [List.length_append, Nat.add_assoc]
  rw [counted, counted, hlen]
  by_cases hpc : pc + sent.length < 2 ^ 31
  · rw [if_pos hpc, ok_bind, Out.emit_append]
    rfl
  · rw [if_neg hpc, if_neg (by omega)]
    rfl

/-- What is counted from 0 is added to what was counted before. -/
theorem counted_bind {ρ : Type} (out : Out) (pc : ℕ) (sent : List UInt8) (f : Out × ℕ → Except Fault ρ) :
    (counted out 0 sent >>= fun r => intAdd pc r.2 >>= fun pc => f (r.1, pc)) =
      (intAdd pc sent.length >>= fun pc => f (out.emit sent, pc)) := by
  rw [counted, Nat.zero_add]
  by_cases hlen : sent.length < 2 ^ 31
  · rw [if_pos hlen, ok_bind]
  · rw [if_neg hlen, intAdd_of_le (by omega)]
    rfl

theorem counted_add (out : Out) (pc : ℕ) (sent : List UInt8) :
    (counted out 0 sent >>= fun r => intAdd pc r.2 >>= fun pc => .ok (r.1, pc)) = counted out pc sent := by
  rw [counted_bind out pc sent .ok, counted, intAdd]
  split <;> rfl

theorem counted_of_lt {pc : ℕ} {sent : List UInt8} (h : pc + sent.length < 2 ^ 31) :
    counted out pc sent = .ok (out.emit sent, pc + sent.length) := if_pos h

theorem lenLoop_eq (h : Spells string out n text) {fuel i : ℕ} (hi : i ≤ text.length) (hint : i < 2 ^ 31)
    (hfuel : text.length < i + fuel) :
    lenLoop (string out) fuel i = if text.length < 2 ^ 31 then .ok text.length else .error .count := by
  induction fuel generalizing i with
  | zero => omega
  | succ fuel ih =>
    rw [lenLoop]
    by_cases hend : i = text.length
    · rw [if_pos ((h.eq_zero_iff hi).mpr hend), hend, if_pos (hend ▸ hint)]
    · rw [if_neg (mt (h.eq_zero_iff hi).mp hend)]
      by_cases hnext : i + 1 < 2 ^ 31
      · rw [intAdd_of_lt hnext, ok_bind]
        exact ih (by omega) hnext (by omega)
      · rw [intAdd_of_le (Nat.not_lt.mp hnext), if_neg (by omega)]
        rfl

theorem padLoop_eq (padchar : UInt8) (width : ℕ) (out : Out) {pc : ℕ} (hpc : pc < 2 ^ 31) :
    padLoop padchar width (out, pc) = counted out pc (List.replicate width padchar) := by
  induction width generalizing out pc with
  | zero => exact (counted_nil hpc).symm
  | succ width ih =>
    rw [padLoop, List.replicate_succ, counted_cons]
    by_cases hnext : pc + 1 < 2 ^ 31
    · rw [intAdd_of_lt hnext, ok_bind, ok_bind, ih _ hnext]
    · rw [intAdd_of_le (Nat.not_lt.mp hnext)]
      rfl

theorem copyLoop_eq {fuel i pc : ℕ} (h : Spells string out (n + (text.length - i)) text) (hi : i ≤ text.length)
    (hfuel : text.length < i + fuel) (hpc : pc < 2 ^ 31) :
    copyLoop string fuel i (out, pc) = counted out pc (text.drop i) := by
  induction fuel generalizing i out pc with
  | zero => omega
  | succ fuel ih =>
    rw [copyLoop]
    by_cases hend : i = text.length
    · rw [if_pos ((h.eq_zero_iff hi).mpr hend), hend, List.drop_length, counted_nil hpc]
    · have hlt : i < text.length := by omega
      have hchar : string out i = text[i] := by
        rw [show string out i = text.getD i 0 from h.char [] (Nat.zero_le _) i hi, List.getD_eq_getElem _ _ hlt]
      have hmono : Spells string out ([text[i]].length + (n + (text.length - (i + 1)))) text :=
        h.mono (by rw [List.length_singleton]; omega)
      have hnext : Spells string (printchar out text[i]) (n + (text.length - (i + 1))) text := hmono.emit
      rw [if_neg (mt (h.eq_zero_iff hi).mp hend), hchar, List.drop_eq_getElem_cons hlt, counted_cons]
      by_cases hint : pc + 1 < 2 ^ 31
      · rw [intAdd_of_lt hint, ok_bind, ok_bind]
        exact ih hnext (by omega) (by omega) hint
      · rw [intAdd_of_le (Nat.not_lt.mp hint)]
        rfl

/-- A text brought to a width. -/
def justify (pad : Pad) (width : ℕ) (text : List UInt8) : List UInt8 :=
  let padding := List.replicate (width - text.length) (if pad.zero then '0'.toUInt8 else ' '.toUInt8)
  if pad.right then text ++ padding else padding ++ text

theorem justify_length (pad : Pad) (width : ℕ) (text : List UInt8) :
    (justify pad width text).length = text.length + (width - text.length) := by
  rw [justify]
  split
  · rw [List.length_append, List.length_replicate]
  · rw [List.length_append, List.length_replicate, Nat.add_comm]

theorem justify_of_le (pad : Pad) {width : ℕ} {text : List UInt8} (h : width ≤ text.length) :
    justify pad width text = text := by
  rw [justify, Nat.sub_eq_zero_of_le h, List.replicate_zero]
  split
  · exact List.append_nil text
  · rfl

theorem padding_eq (h : Spells string out n text) (hint : text.length < 2 ^ 31) (width : ℕ) (pad : Pad) :
    ∃ padchar, padding (string out) width pad = .ok (width - text.length, padchar) ∧
      List.replicate (width - text.length) (if pad.zero then '0'.toUInt8 else ' '.toUInt8) =
        List.replicate (width - text.length) padchar := by
  rw [padding]
  rcases Nat.eq_zero_or_pos width with rfl | hpos
  · exact ⟨_, by rw [if_neg (Nat.lt_irrefl 0), Nat.zero_sub], by simp⟩
  · refine ⟨_, ?_, rfl⟩
    have hlen := h.length
    rw [if_pos hpos, lenLoop_eq h (Nat.zero_le _) (by decide) (by omega), if_pos hint, ok_bind]
    by_cases hle : width ≤ text.length
    · rw [if_pos hle, Nat.sub_eq_zero_of_le hle]
    · rw [if_neg hle]

/-- A text that is too long is so before it is brought to the width. -/
theorem prints_long {width : ℕ} {pad : Pad} (h : Spells string out (justify pad width text).length text)
    (hlong : 2 ^ 31 ≤ text.length) : prints string width pad out = .error .count := by
  have hlen := h.length
  rw [justify_length] at h
  rw [prints, padding]
  rcases Nat.eq_zero_or_pos width with rfl | hpos
  · have hcopy : copyLoop string turns 0 (out, 0) = .error .count := by
      rw [copyLoop_eq (n := 0 - text.length) (h.mono (by omega)) (Nat.zero_le _) (by omega) (by decide), List.drop_zero,
        counted, if_neg (by omega)]
    rw [if_neg (Nat.lt_irrefl 0), ok_bind]
    cases pad.right with
    | true => simp only [if_true, hcopy]; rfl
    | false => simp only [Bool.false_eq_true, if_false, padLoop, ok_bind, hcopy]
  · rw [if_pos hpos, lenLoop_eq h (Nat.zero_le _) (by decide) (by omega), if_neg (by omega)]
    rfl

/-- **`prints` sends the text, brought to the width**, if an `int` counts it. -/
theorem prints_eq {width : ℕ} {pad : Pad} (h : Spells string out (justify pad width text).length text) :
    prints string width pad out = counted out 0 (justify pad width text) := by
  have hlength := justify_length pad width text
  have hlen := h.length
  by_cases hint : text.length < 2 ^ 31
  swap
  · rw [prints_long h (Nat.not_lt.mp hint), counted, if_neg (by omega)]
  rw [hlength] at h
  obtain ⟨padchar, hfirst, hpad⟩ := padding_eq h hint width pad
  rw [prints, hfirst, ok_bind, justify, hpad]
  cases hright : pad.right with
  | true =>
    have htext : counted out 0 text = .ok (out.emit text, text.length) := by
      rw [counted_of_lt (by omega), Nat.zero_add]
    have hcopy : copyLoop string turns 0 (out, 0) = .ok (out.emit text, text.length) :=
      (copyLoop_eq (n := width - text.length) (h.mono (by omega)) (Nat.zero_le _) (by omega) (by decide)).trans htext
    simp only [if_true, hcopy, ok_bind]
    rw [padLoop_eq _ _ _ hint, counted_append, htext, ok_bind]
  | false =>
    simp only [Bool.false_eq_true, if_false]
    rw [padLoop_eq _ _ _ (by decide), counted_append, counted]
    split
    · next hpc =>
      rw [List.length_replicate] at hpc
      have hspells : Spells string (out.emit (List.replicate (width - text.length) padchar)) text.length text :=
        Spells.emit (h.mono (by rw [List.length_replicate]; omega))
      rw [ok_bind, ok_bind, List.length_replicate]
      exact copyLoop_eq (n := 0) (by rw [Nat.zero_add]; exact hspells) (Nat.zero_le _) (by omega) hpc
    · rfl

/-! ### `printi` -/

/-- The character of a digit. -/
def digitChar (letbase : UInt32) (d : ℕ) : UInt8 :=
  if d < 10 then '0'.toUInt8 + UInt8.ofNat d else letbase.toUInt8 + UInt8.ofNat (d - 10)

theorem digitChar_eq (letbase t : UInt32) :
    ((if 10 ≤ t then t + (letbase - 48 - 10) else t) + 48).toUInt8 = digitChar letbase t.toNat := by
  have hofNat : ∀ t : UInt32, UInt8.ofNat t.toNat = t.toUInt8 := fun t => rfl
  rw [digitChar]
  by_cases hle : 10 ≤ t
  · have hnat : 10 ≤ t.toNat := UInt32.le_iff_toNat_le.mp hle
    have hsub : UInt8.ofNat (t.toNat - 10) = t.toUInt8 - 10 := by
      rw [show t.toNat - 10 = (t - 10).toNat from (toNat_sub_of_le (a := t) (b := 10) hnat).symm, hofNat,
        UInt32.toUInt8_sub]
      rfl
    have hten : UInt32.toUInt8 10 = 10 := rfl
    have hzero : UInt32.toUInt8 48 = 48 := rfl
    rw [if_pos hle, if_neg (by omega), hsub]
    simp only [UInt32.toUInt8_add, UInt32.toUInt8_sub, hten, hzero]
    grind
  · have hnat : t.toNat < 10 := by
      have := mt UInt32.le_iff_toNat_le.mpr hle
      exact not_le.mp this
    rw [if_neg hle, if_pos hnat, UInt32.toUInt8_add, hofNat]
    exact UInt8.add_comm _ _

theorem push_eq {s : List UInt8} (h : s.length < printBufLen) (c : UInt8) : push s c = .ok (c :: s) := if_pos h

/-- The loop puts the digits before what is there. -/
theorem digitsLoop_eq {b letbase u : UInt32} (hb : 1 < b.toNat) {s : List UInt8} {fuel : ℕ}
    (hroom : (numeral b.toNat (digitChar letbase) u.toNat).length + s.length ≤ printBufLen)
    (hfuel : (numeral b.toNat (digitChar letbase) u.toNat).length < fuel) :
    digitsLoop b letbase fuel u s = .ok (numeral b.toNat (digitChar letbase) u.toNat ++ s) := by
  induction fuel generalizing u s with
  | zero => omega
  | succ fuel ih =>
    rw [digitsLoop]
    by_cases hu : u = 0
    · rw [if_pos hu, hu]
      exact congrArg Except.ok (by rw [UInt32.toNat_zero, numeral_zero, List.nil_append])
    · have hpos : 0 < u.toNat := Nat.pos_of_ne_zero fun h => hu (UInt32.toNat_inj.mp h)
      have hlen : (numeral b.toNat (digitChar letbase) u.toNat).length =
          (numeral b.toNat (digitChar letbase) (u.toNat / b.toNat)).length + 1 := by
        rw [numeral_eq_append hb hpos, List.length_append, List.length_singleton]
      rw [if_neg hu, numeral_append_cons hb hpos, ← UInt32.toNat_div, ← UInt32.toNat_mod, ← digitChar_eq]
      change (push s _ >>= _) = _
      rw [push_eq (by omega), ok_bind]
      rw [← UInt32.toNat_div] at hlen
      exact ih (by rw [List.length_cons]; omega) (by omega)

/-- Whether `printi` sends a sign. -/
def negative (i b : UInt32) (sg : Bool) : Bool := sg && b = 10 && 0x80000000 ≤ i

/-- The digits that `printi` sends. -/
def printiDigits (i b : UInt32) (sg : Bool) (letbase : UInt32) : List UInt8 :=
  if i = 0 then ['0'.toUInt8] else numeral b.toNat (digitChar letbase) (if negative i b sg then -i else i).toNat

/-- What `printi` sends: with zeros to the left, they come after the sign. -/
def printiText (i b : UInt32) (sg : Bool) (width : ℕ) (pad : Pad) (letbase : UInt32) : List UInt8 :=
  let digits := printiDigits i b sg letbase
  if negative i b sg then
    if 0 < width ∧ pad.zero then '-'.toUInt8 :: justify pad (width - 1) digits
    else justify pad width ('-'.toUInt8 :: digits)
  else justify pad width digits

variable {i b letbase : UInt32} {sg : Bool}

/-- The bases that `print` uses. -/
def Base (b : UInt32) : Prop := b = 10 ∨ b = 16

instance : DecidablePred Base := fun b => inferInstanceAs (Decidable (b = 10 ∨ b = 16))

theorem Base.bounds (h : Base b) : 10 ≤ b.toNat ∧ b.toNat ≤ 16 := by
  rcases h with rfl | rfl <;> decide

theorem digitChar_ne_zero (hl : letbase = 97 ∨ letbase = 65) {d : ℕ} (hd : d < 16) : digitChar letbase d ≠ 0 := by
  have hall : ∀ d < 16, digitChar 97 d ≠ 0 ∧ digitChar 65 d ≠ 0 := by decide
  rcases hl with rfl | rfl
  · exact (hall d hd).1
  · exact (hall d hd).2

/-- A word has at most ten digits. -/
theorem numeral_length_word (hb : Base b) (digit : ℕ → UInt8) (u : UInt32) :
    (numeral b.toNat digit u.toNat).length ≤ 10 := by
  have hbounds := hb.bounds
  have hu := u.toNat_lt
  refine (numeral_length_le_iff (by omega)).mpr (Nat.lt_of_lt_of_le hu ?_)
  calc 2 ^ 32 ≤ 10 ^ 10 := by decide
    _ ≤ b.toNat ^ 10 := Nat.pow_le_pow_left hbounds.1 10

theorem printiDigits_length (hb : Base b) : (printiDigits i b sg letbase).length ≤ 10 := by
  rw [printiDigits]
  split
  · decide
  · exact numeral_length_word hb _ _

theorem zero_not_mem_printiDigits (hb : Base b) (hl : letbase = 97 ∨ letbase = 65) :
    0 ∉ printiDigits i b sg letbase := by
  have hbounds := hb.bounds
  rw [printiDigits]
  split
  · decide
  · intro hmem
    obtain ⟨d, hd, hzero⟩ := exists_of_mem_numeral (by omega) hmem
    exact digitChar_ne_zero hl (by omega) hzero.symm

theorem not_negative_zero : negative 0 b sg = false := by
  rw [negative, Bool.and_eq_false_iff]
  exact .inr (by decide)

/-- `print_buf` has the digits and the 0. -/
theorem digitsLoop_print_buf (hb : Base b) (hi : i ≠ 0) :
    digitsLoop b letbase turns (if negative i b sg then -i else i) [0] = .ok (printiDigits i b sg letbase ++ [0]) := by
  have hbounds := hb.bounds
  have hlen := numeral_length_word hb (digitChar letbase) (if negative i b sg then -i else i)
  rw [printiDigits, if_neg hi]
  refine digitsLoop_eq (by omega) ?_ (Nat.lt_of_le_of_lt hlen (by decide))
  rw [List.length_singleton, printBufLen]
  omega

/-- **`printi` sends its text**, if an `int` counts it: the digits, the sign and the 0 never leave `print_buf`. -/
theorem printi_eq (hb : Base b) (hl : letbase = 97 ∨ letbase = 65) (width : ℕ) (pad : Pad) (out : Out) :
    printi i b sg width pad letbase out = counted out 0 (printiText i b sg width pad letbase) := by
  have hlen : (printiDigits i b sg letbase).length ≤ 10 := printiDigits_length hb
  have hnul : 0 ∉ printiDigits i b sg letbase := zero_not_mem_printiDigits hb hl
  have hshort : 11 < turns := by decide
  have hspells : ∀ out n, Spells (onStack (printiDigits i b sg letbase ++ [0])) out n (printiDigits i b sg letbase) :=
    fun _ _ => spells_onStack hnul (by omega)
  rw [printi]
  by_cases hi : i = 0
  · rw [if_pos hi, printiText, hi, not_negative_zero]
    have hdigits : printiDigits 0 b sg letbase = ['0'.toUInt8] := if_pos rfl
    have hprints := prints_eq (hspells out (justify pad width (printiDigits i b sg letbase)).length)
    rw [hi, hdigits] at hprints
    exact hprints.trans (by rw [hdigits]; rfl)
  · rw [if_neg hi]
    change (digitsLoop b letbase turns (if negative i b sg then -i else i) [0] >>= fun s =>
      sign (negative i b sg) s width pad out >>= fun r => prints (onStack r.1) r.2.1 pad r.2.2.1 >>= fun p =>
        intAdd r.2.2.2 p.2 >>= fun pc => Except.ok (p.1, pc)) = _
    rw [digitsLoop_print_buf hb hi, ok_bind, printiText, sign]
    cases hneg : negative i b sg with
    | false =>
      simp only [Bool.false_eq_true, if_false, ok_bind, prints_eq (hspells out _), counted_add]
    | true =>
      rw [if_pos rfl, if_pos rfl]
      by_cases hzero : 0 < width ∧ pad.zero
      · rw [if_pos hzero, if_pos hzero, ok_bind, counted_cons, intAdd_of_lt (by decide), ok_bind]
        simp only [prints_eq (hspells (printchar out '-'.toUInt8) _), counted_add]
      · have hminus : Spells (onStack ('-'.toUInt8 :: printiDigits i b sg letbase ++ [0])) out
            (justify pad width ('-'.toUInt8 :: printiDigits i b sg letbase)).length
              ('-'.toUInt8 :: printiDigits i b sg letbase) :=
          spells_onStack (fun hmem => (List.mem_cons.mp hmem).elim (by decide) hnul) (by rw [List.length_cons]; omega)
        have hpush : (printiDigits i b sg letbase ++ [0]).length < printBufLen := by
          rw [List.length_append, List.length_singleton, printBufLen]
          omega
        rw [if_neg hzero, if_neg hzero, push_eq hpush, ok_bind, ok_bind]
        simp only [← List.cons_append, prints_eq hminus, counted_add]

/-! ### Reading it back -/

/-- The value of a digit in a base. -/
def digitValue (b : ℕ) (c : UInt8) : Option ℕ :=
  let d := if '0'.toUInt8 ≤ c ∧ c ≤ '9'.toUInt8 then c.toNat - 48
    else if 'a'.toUInt8 ≤ c ∧ c ≤ 'z'.toUInt8 then c.toNat - 87
    else if 'A'.toUInt8 ≤ c ∧ c ≤ 'Z'.toUInt8 then c.toNat - 55
    else b
  if d < b then some d else none

/-- The number that a text begins with, after blanks and a sign, however large it is. -/
def readBack (b : ℕ) (text : List UInt8) : ℤ :=
  match text.dropWhile (· = ' '.toUInt8) with
  | [] => 0
  | c :: rest => if c = '-'.toUInt8 then -(readFrom b (digitValue b) 0 rest : ℕ)
      else (readFrom b (digitValue b) 0 (c :: rest) : ℕ)

/-- The value of an `int`, signed or not. -/
def intValue (sg : Bool) (i : UInt32) : ℤ := if sg then i.toBitVec.toInt else i.toNat

theorem intValue_eq (i b : UInt32) (hb : b = 10 ∨ sg = false) :
    intValue sg i = if negative i b sg then -((-i).toNat : ℤ) else i.toNat := by
  have hi := i.toNat_lt
  cases sg with
  | false => rfl
  | true =>
    obtain rfl : b = 10 := hb.resolve_right (by decide)
    have hneg : (-i).toNat = (2 ^ 32 - i.toNat) % 2 ^ 32 := UInt32.toNat_neg i
    have hcond : negative i 10 true = decide (2 ^ 31 ≤ i.toNat) := by
      simp only [negative, decide_true, Bool.true_and]
      exact decide_eq_decide.mpr UInt32.le_iff_toNat_le
    have htoInt : i.toBitVec.toInt = if 2 * i.toNat < 2 ^ 32 then (i.toNat : ℤ) else (i.toNat : ℤ) - (2 ^ 32 : ℕ) :=
      BitVec.toInt_eq_toNat_cond i.toBitVec
    rw [intValue, if_pos rfl, htoInt, hcond]
    by_cases hbig : 2 ^ 31 ≤ i.toNat
    · rw [if_neg (by omega), decide_eq_true hbig, if_pos rfl, hneg, Nat.mod_eq_of_lt (by omega)]
      push_cast [show i.toNat ≤ 2 ^ 32 by omega]
      omega
    · rw [if_pos (by omega), decide_eq_false hbig, if_neg Bool.false_ne_true]

theorem digitValue_digitChar (hb : Base b) (hl : letbase = 97 ∨ letbase = 65) {d : ℕ} (hd : d < b.toNat) :
    digitValue b.toNat (digitChar letbase d) = some d := by
  have hall : (∀ d < 10, digitValue 10 (digitChar 97 d) = some d ∧ digitValue 10 (digitChar 65 d) = some d) ∧
      ∀ d < 16, digitValue 16 (digitChar 97 d) = some d ∧ digitValue 16 (digitChar 65 d) = some d := by decide
  rcases hb with rfl | rfl <;> rcases hl with rfl | rfl
  · exact (hall.1 d hd).1
  · exact (hall.1 d hd).2
  · exact (hall.2 d hd).1
  · exact (hall.2 d hd).2

/-- Blanks and signs are no digits. -/
theorem digitValue_of_lt {base : ℕ} {c : UInt8} (h : c < '0'.toUInt8) : digitValue base c = none := by
  have hc : c.toNat < 48 := UInt8.lt_iff_toNat_lt.mp h
  have hnot : ∀ d : UInt8, 48 ≤ d.toNat → ¬d ≤ c := fun d hd hle => by
    have := UInt8.le_iff_toNat_le.mp hle
    omega
  have hdigit : ¬('0'.toUInt8 ≤ c ∧ c ≤ '9'.toUInt8) := fun h => hnot _ (by decide) h.1
  have hlower : ¬('a'.toUInt8 ≤ c ∧ c ≤ 'z'.toUInt8) := fun h => hnot _ (by decide) h.1
  have hupper : ¬('A'.toUInt8 ≤ c ∧ c ≤ 'Z'.toUInt8) := fun h => hnot _ (by decide) h.1
  simp [digitValue, if_neg hdigit, if_neg hlower, if_neg hupper]

/-- A text that begins with a digit. -/
def Begins (base : ℕ) (text : List UInt8) : Prop := ∃ c rest, text = c :: rest ∧ (digitValue base c).isSome

/-- Blanks, a sign, and a number. -/
theorem readBack_eq {base : ℕ} {text : List UInt8} (h : Begins base text) (neg : Bool) (p : ℕ) :
    readBack base (List.replicate p ' '.toUInt8 ++ ((if neg then ['-'.toUInt8] else []) ++ text)) =
      if neg then -(readFrom base (digitValue base) 0 text : ℤ) else readFrom base (digitValue base) 0 text := by
  obtain ⟨c, rest, rfl, hc⟩ := h
  have hne : ∀ d : UInt8, d < '0'.toUInt8 → c ≠ d := fun d hd heq => by
    rw [heq, digitValue_of_lt hd] at hc
    cases hc
  induction p with
  | zero =>
    rw [List.replicate_zero, List.nil_append]
    cases neg with
    | true => rfl
    | false =>
      have hblank : c ≠ ' '.toUInt8 := hne _ (by decide)
      have hminus : c ≠ '-'.toUInt8 := hne _ (by decide)
      simp [readBack, hblank, hminus]
  | succ p ih =>
    rw [← ih]
    rfl

/-- Padding on the left is not read, and zeros on the right are. -/
theorem readFrom_padding {base : ℕ} (hbase : 0 < base) (zero : Bool) (k n : ℕ) :
    readFrom base (digitValue base) n (List.replicate k (if zero then '0'.toUInt8 else ' '.toUInt8)) =
      n * base ^ (if zero then k else 0) := by
  cases zero with
  | true =>
    have hzero : digitValue base '0'.toUInt8 = some 0 := if_pos hbase
    simpa [readFrom] using readFrom_replicate (b := base) hzero k n []
  | false =>
    refine (readFrom_of_none (fun c hc => ?_) n).trans (by simp)
    cases k with
    | zero => cases hc
    | succ k =>
      obtain rfl : ' '.toUInt8 = c := Option.some.inj hc
      exact digitValue_of_lt (by decide)

/-- The sign that is sent. -/
def signText (neg : Bool) : List UInt8 := if neg then ['-'.toUInt8] else []

/-- How many characters the padding has. -/
def padCount (i b : UInt32) (sg : Bool) (width : ℕ) (letbase : UInt32) : ℕ :=
  width - (signText (negative i b sg) ++ printiDigits i b sg letbase).length

/-- **The three ways to pad**: zeros on the left go between the sign and the digits. -/
theorem printiText_eq (i b : UInt32) (sg : Bool) (width : ℕ) (pad : Pad) (letbase : UInt32) :
    printiText i b sg width pad letbase =
      if pad.right then signText (negative i b sg) ++ (printiDigits i b sg letbase ++
        List.replicate (padCount i b sg width letbase) (if pad.zero then '0'.toUInt8 else ' '.toUInt8))
      else if pad.zero then signText (negative i b sg) ++ (List.replicate (padCount i b sg width letbase) '0'.toUInt8 ++
        printiDigits i b sg letbase)
      else List.replicate (padCount i b sg width letbase) ' '.toUInt8 ++
        (signText (negative i b sg) ++ printiDigits i b sg letbase) := by
  rw [printiText, padCount]
  cases negative i b sg with
  | false => cases hright : pad.right <;> cases hzero : pad.zero <;> simp [justify, signText, hright, hzero]
  | true =>
    rcases Nat.eq_zero_or_pos width with rfl | hwidth
    · cases hright : pad.right <;> cases hzero : pad.zero <;> simp [justify, signText, hright]
    · have hcount : width - 1 - (printiDigits i b sg letbase).length =
        width - ((printiDigits i b sg letbase).length + 1) := by omega
      cases hright : pad.right <;> cases hzero : pad.zero <;> simp [justify, signText, hright, hzero, hwidth, hcount]

theorem printiText_length (i b : UInt32) (sg : Bool) (width : ℕ) (pad : Pad) (letbase : UInt32) :
    (printiText i b sg width pad letbase).length =
      padCount i b sg width letbase + (signText (negative i b sg) ++ printiDigits i b sg letbase).length := by
  rw [printiText_eq]
  split <;> [skip; split] <;> simp only [List.length_append, List.length_replicate] <;> omega

/-- The number takes the width, and no more than eleven characters where it is wider than that. -/
theorem printiText_length_le (hb : Base b) (width : ℕ) (pad : Pad) :
    (printiText i b sg width pad letbase).length ≤ max width 11 := by
  have hdigits : (printiDigits i b sg letbase).length ≤ 10 := printiDigits_length hb
  have hsign : (signText (negative i b sg)).length ≤ 1 := by
    rw [signText]
    split <;> decide
  rw [printiText_length, padCount, List.length_append]
  omega

/-- With a width that an `int` holds, the text is short enough for one. -/
theorem printiText_length_lt (hb : Base b) {width : ℕ} (hwidth : width < 2 ^ 31) (pad : Pad) :
    (printiText i b sg width pad letbase).length < 2 ^ 31 := by
  have hle : (printiText i b sg width pad letbase).length ≤ max width 11 := printiText_length_le hb width pad
  omega

/-- The number without its sign. -/
def magnitude (i b : UInt32) (sg : Bool) : ℕ := if negative i b sg then (-i).toNat else i.toNat

theorem digits_read (i : UInt32) (sg : Bool) (hb : Base b) (hl : letbase = 97 ∨ letbase = 65) (tail : List UInt8) :
    Begins b.toNat (printiDigits i b sg letbase ++ tail) ∧
      readFrom b.toNat (digitValue b.toNat) 0 (printiDigits i b sg letbase ++ tail) =
        readFrom b.toNat (digitValue b.toNat) (magnitude i b sg) tail := by
  have hbounds := hb.bounds
  have hdigit := fun d hd => digitValue_digitChar hb hl (d := d) hd
  rw [printiDigits, magnitude]
  by_cases hi : i = 0
  · have hzero : digitValue b.toNat '0'.toUInt8 = some 0 := if_pos (by omega : 0 < b.toNat)
    rw [if_pos hi, hi, not_negative_zero, if_neg Bool.false_ne_true]
    refine ⟨⟨_, _, rfl, by rw [hzero]; rfl⟩, ?_⟩
    rw [List.singleton_append, readFrom_cons hzero, Nat.zero_mul, Nat.add_zero]
    rfl
  · have hmag : (if negative i b sg then -i else i).toNat =
        if negative i b sg then (-i).toNat else i.toNat := by split <;> rfl
    have hpos : 0 < if negative i b sg then (-i).toNat else i.toNat := by
      have hne : i.toNat ≠ 0 := fun h => hi (UInt32.toNat_inj.mp h)
      have hneg : (-i).toNat = (2 ^ 32 - i.toNat) % 2 ^ 32 := UInt32.toNat_neg i
      have hlt := i.toNat_lt
      split <;> omega
    obtain ⟨d, hd, rest, hcons⟩ := exists_numeral_cons (digitChar letbase) (by omega : 1 < b.toNat) hpos
    rw [if_neg hi, readFrom_numeral (by omega) hdigit, hmag]
    exact ⟨⟨_, _, by rw [hcons]; rfl, by rw [hdigit d hd]; rfl⟩, rfl⟩

/-- **What is read back**: padding with zeros on the right multiplies. -/
theorem readBack_printiText (hb : Base b) (hl : letbase = 97 ∨ letbase = 65) (hsg : b = 10 ∨ sg = false)
    (width : ℕ) (pad : Pad) :
    readBack b.toNat (printiText i b sg width pad letbase) =
      intValue sg i * b.toNat ^ (if pad.right && pad.zero then padCount i b sg width letbase else 0) := by
  have hpos : 0 < b.toNat := by
    have := hb.bounds
    omega
  have hzero : digitValue b.toNat '0'.toUInt8 = some 0 := if_pos hpos
  have hsign : ∀ n : ℕ, (if negative i b sg then -(n : ℤ) else n) =
      (if negative i b sg then -1 else 1) * n := fun n => by
    split <;> simp
  have hvalue : intValue sg i = (if negative i b sg then -1 else 1) * (magnitude i b sg : ℤ) := by
    rw [intValue_eq i b hsg, ← hsign, magnitude]
    split <;> rfl
  rw [printiText_eq, hvalue]
  cases hright : pad.right with
  | true =>
    obtain ⟨hbegins, hread⟩ := digits_read i sg hb hl
      (List.replicate (padCount i b sg width letbase) (if pad.zero then '0'.toUInt8 else ' '.toUInt8))
    rw [if_pos rfl, signText]
    refine (readBack_eq hbegins (negative i b sg) 0).trans ?_
    rw [hread, readFrom_padding hpos, hsign, Bool.true_and, Nat.cast_mul, Nat.cast_pow, mul_assoc]
  | false =>
    obtain ⟨hbegins, hread⟩ := digits_read i sg hb hl []
    rw [List.append_nil] at hbegins hread
    rw [if_neg Bool.false_ne_true, Bool.false_and, if_neg Bool.false_ne_true, pow_zero, mul_one, ← hsign]
    cases hpad : pad.zero with
    | true =>
      have hread' := readFrom_replicate (b := b.toNat) hzero (padCount i b sg width letbase) 0
        (printiDigits i b sg letbase)
      rw [Nat.zero_mul, hread] at hread'
      have hbegins' : Begins b.toNat (List.replicate (padCount i b sg width letbase) '0'.toUInt8 ++
          printiDigits i b sg letbase) := by
        cases padCount i b sg width letbase with
        | zero => exact hbegins
        | succ k => exact ⟨_, _, rfl, by rw [hzero]; rfl⟩
      rw [if_pos rfl]
      refine (readBack_eq hbegins' (negative i b sg) 0).trans ?_
      rw [hread']
      rfl
    | false =>
      rw [if_neg Bool.false_ne_true]
      refine (readBack_eq hbegins (negative i b sg) _).trans ?_
      rw [hread]
      rfl

/-- **Reading back what `printi` sends** gives the number, unless there are zeros on its right. -/
theorem printi_reads_iff (hb : Base b) (hl : letbase = 97 ∨ letbase = 65) (hsg : b = 10 ∨ sg = false) {width : ℕ}
    (hwidth : width < 2 ^ 31) (pad : Pad) (out : Out) :
    ∃ text, printi i b sg width pad letbase out = .ok (out.emit text, text.length) ∧ width ≤ text.length ∧
      (readBack b.toNat text = intValue sg i ↔
        ¬(pad.right = true ∧ pad.zero = true) ∨ i = 0 ∨ width ≤ (printiText i b sg 0 pad letbase).length) := by
  have hbase := hb.bounds
  have hplain : printiText i b sg 0 pad letbase = signText (negative i b sg) ++ printiDigits i b sg letbase := by
    rw [printiText_eq, padCount, Nat.zero_sub]
    simp
  refine ⟨printiText i b sg width pad letbase, ?_, ?_, ?_⟩
  · have hshort : (printiText i b sg width pad letbase).length < 2 ^ 31 := printiText_length_lt hb hwidth pad
    rw [printi_eq hb hl, counted_of_lt (by omega), Nat.zero_add]
  · rw [printiText_length, padCount]
    omega
  · rw [readBack_printiText hb hl hsg, hplain, ← Nat.sub_eq_zero_iff_le, ← padCount]
    have hvalue : intValue sg i = 0 ↔ i = 0 := by
      cases sg with
      | false => exact Int.natCast_eq_zero.trans ⟨fun h => UInt32.toNat_inj.mp h, fun h => by rw [h]; rfl⟩
      | true => exact ⟨fun h => UInt32.toBitVec_inj.mp (BitVec.toInt_inj.mp h), fun h => by rw [h]; rfl⟩
    cases hpad : pad.right && pad.zero with
    | false =>
      rw [if_neg Bool.false_ne_true, pow_zero, mul_one]
      refine ⟨fun _ => .inl ?_, fun _ => rfl⟩
      rintro ⟨hright, hzero⟩
      rw [hright, hzero] at hpad
      cases hpad
    | true =>
      have hboth : ¬¬(pad.right = true ∧ pad.zero = true) := not_not.mpr (Bool.and_eq_true_iff.mp hpad)
      have hpow : ((b.toNat : ℤ) ^ padCount i b sg width letbase = 1) ↔ padCount i b sg width letbase = 0 := by
        rw [← Nat.cast_pow, Nat.cast_eq_one, Nat.pow_eq_one]
        exact or_iff_right (by omega)
      rw [if_pos rfl, mul_right_eq_self₀, hpow, hvalue, or_comm]
      exact (or_iff_right hboth).symm

/-- With a `-` and a zero, `42` becomes `42000`. -/
theorem printi_reads_iff_right : ∃ text, printi 42 10 true 5 ⟨true, true⟩ 97 ⟨fun _ => 0, none, []⟩ =
      .ok (Out.emit ⟨fun _ => 0, none, []⟩ text, text.length) ∧ 5 ≤ text.length ∧
      (readBack (10 : UInt32).toNat text = intValue true 42 ↔
        ¬(true = true ∧ true = true) ∨ (42 : UInt32) = 0 ∨ 5 ≤ (printiText 42 10 true 0 ⟨true, true⟩ 97).length) :=
  printi_reads_iff (.inl rfl) (.inl rfl) (.inl rfl) (by decide) ⟨true, true⟩ ⟨fun _ => 0, none, []⟩

end MoltarOS.Libc
