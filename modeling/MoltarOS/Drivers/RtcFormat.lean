import MoltarOS.Drivers.Rtc
import MoltarOS.Libc.PrintfText

/-!
# The format of the clock

`rtc_print` as a call of `printf`, with its format and its strings in memory.

## What is proved

* `printf_rtc` — `printf` shows the text that the clock is taken to print, whatever the registers hold.
-/

namespace MoltarOS.Drivers.Rtc

open MoltarOS.Lib MoltarOS.Lib.Word MoltarOS.Libc

/-- `"%d:%s%d:%s%d%s"`. -/
def rtcFormat : List UInt8 := chars "%d:%s%d:%s%d%s"

/-- Where the strings of `rtc_print` are. -/
structure Literals where
  format : UInt32
  /-- `"0"`. -/
  zero : UInt32
  /-- `""`. -/
  empty : UInt32
  /-- `"PM"`. -/
  pm : UInt32
  /-- `"AM"`. -/
  am : UInt32

/-- They are there. -/
structure Literals.InMem (l : Literals) (m : Mem) : Prop where
  format : CString m l.format rtcFormat
  zero : CString m l.zero (chars "0")
  empty : CString m l.empty (chars "")
  pm : CString m l.pm (chars "PM")
  am : CString m l.am (chars "AM")
  /-- Not at the address that is NULL. -/
  nonnull : l.zero ≠ 0 ∧ l.empty ≠ 0 ∧ l.pm ≠ 0 ∧ l.am ≠ 0

/-- The arguments of `printf` in `rtc_print`. -/
def rtcArgs (l : Literals) (hourReg minReg secReg : UInt8) : List UInt32 :=
  let (pm, hour) := convert (asBinary hourReg).toNat
  let min := asBinary minReg
  let sec := asBinary secReg
  [⟨BitVec.ofInt 32 hour⟩, if min < 10 then l.zero else l.empty, min.toUInt32, if sec < 10 then l.zero else l.empty,
    sec.toUInt32, if pm then l.pm else l.am]

/-- The pieces of the format. -/
def rtcPieces : List Piece :=
  [plain 'd'.toUInt8 (by decide), .char ':'.toUInt8 (by decide), plain 's'.toUInt8 (by decide),
    plain 'd'.toUInt8 (by decide), .char ':'.toUInt8 (by decide), plain 's'.toUInt8 (by decide),
    plain 'd'.toUInt8 (by decide), plain 's'.toUInt8 (by decide)]

theorem spell_rtcPieces : spell rtcPieces ++ Tail.none.text = rtcFormat := by decide

/-! ### Decimals -/

/-- The decimal notation of a number has the digits that `printi` writes. -/
theorem toDigits_eq (n : ℕ) : (Nat.toDigits 10 n).map (fun c => UInt8.ofNat c.toNat) =
    if n = 0 then ['0'.toUInt8] else numeral 10 (digitChar 97) n := by
  have hdigit : ∀ d < 10, UInt8.ofNat (Nat.digitChar d).toNat = digitChar 97 d := by decide
  induction n using Nat.strong_induction_on with
  | _ n ih =>
    rcases Nat.eq_zero_or_pos n with rfl | hn
    · decide
    · rw [if_neg hn.ne', numeral_eq_append (by decide) hn, ← hdigit _ (Nat.mod_lt n (by decide)),
        Nat.toDigits_eq_if (by decide)]
      by_cases hlt : n < 10
      · rw [if_pos hlt, Nat.div_eq_of_lt hlt, numeral_zero, Nat.mod_eq_of_lt hlt]
        rfl
      · rw [if_neg hlt, List.map_append, ih (n / 10) (by omega), if_neg (by omega)]
        rfl

/-- **`%d` writes the decimal notation.** -/
theorem printiText_decimal (i : UInt32) : printiText i 10 true 0 ⟨false, false⟩ 97 = decimal i.toBitVec.toInt := by
  have hvalue : intValue true i = _ := intValue_eq i 10 (.inl rfl)
  rw [intValue, if_pos rfl] at hvalue
  have hdigits : ∀ u : UInt32, (Nat.toDigits 10 u.toNat).map (fun c => UInt8.ofNat c.toNat) =
      if u = 0 then ['0'.toUInt8] else numeral 10 (digitChar 97) u.toNat := fun u => by
    rw [toDigits_eq]
    exact if_congr ⟨fun h => UInt32.toNat_inj.mp h, fun h => by rw [h]; rfl⟩ rfl rfl
  have hten : (10 : UInt32).toNat = 10 := rfl
  rw [printiText, hvalue, printiDigits, decimal, hten]
  cases hneg : negative i 10 true with
  | false =>
    rw [if_neg Bool.false_ne_true, if_neg Bool.false_ne_true, if_neg Bool.false_ne_true,
      justify_of_le _ (Nat.zero_le _), ← hdigits]
    exact congrArg (List.map _) Nat.toList_repr.symm
  | true =>
    have hi : i ≠ 0 := fun hi => by
      rw [hi, not_negative_zero] at hneg
      cases hneg
    have hni : -i ≠ 0 := fun h => hi (by grind)
    obtain ⟨k, hk⟩ : ∃ k, (-i).toNat = k + 1 := Nat.exists_eq_succ_of_ne_zero fun h => hni (UInt32.toNat_inj.mp h)
    have htext : (toString (-(((k + 1 : ℕ) : ℤ)))).toList = '-' :: Nat.toDigits 10 (k + 1) := by
      change ("-" ++ toString (k + 1)).toList = _
      rw [String.toList_append, Nat.toString_eq_repr, Nat.toList_repr]
      rfl
    have hrest := hdigits (-i)
    rw [if_neg hni, hk] at hrest
    rw [if_pos rfl, if_neg (by decide), if_neg hi, if_pos rfl, if_pos rfl, justify_of_le _ (Nat.zero_le _), hk,
      htext, ← hrest]
    rfl

/-! ### The call -/

theorem decimal_word {n : ℤ} (h : 0 ≤ n) (h' : n < 2 ^ 31) :
    printiText ⟨BitVec.ofInt 32 n⟩ 10 true 0 ⟨false, false⟩ 97 = decimal n := by
  rw [printiText_decimal]
  refine congrArg decimal ?_
  change (BitVec.ofInt 32 n).toInt = n
  rw [BitVec.toInt_ofInt]
  exact Int.bmod_eq_of_le (by omega) (by omega)

theorem decimal_byte (b : UInt8) : printiText b.toUInt32 10 true 0 ⟨false, false⟩ 97 = decimal b.toNat := by
  have hb := b.toNat_lt
  have hword : b.toUInt32 = ⟨BitVec.ofInt 32 (b.toNat : ℤ)⟩ := by
    apply UInt32.toNat_inj.mp
    change _ = (BitVec.ofInt 32 (b.toNat : ℤ)).toNat
    rw [BitVec.ofInt_natCast, BitVec.toNat_ofNat, UInt8.toNat_toUInt32, Nat.mod_eq_of_lt (by omega)]
  rw [hword]
  exact decimal_word (by omega) (by omega)

theorem convert_range (b : UInt8) : 0 ≤ (convert b.toNat).2 ∧ (convert b.toNat).2 ≤ 12 := by
  have hall : ∀ n < 256, 0 ≤ (convert (n : ℕ)).2 ∧ (convert (n : ℕ)).2 ≤ 12 := by decide +kernel
  exact hall b.toNat b.toNat_lt

variable {str : UInt32 → List UInt8} {a : UInt32} {rest : List UInt32}

theorem render_d (h : _) :
    (plain 'd'.toUInt8 h).render str (a :: rest) = .ok (printiText a 10 true 0 ⟨false, false⟩ 97) := rfl

theorem render_s (h : _) (ha : a ≠ 0) : (plain 's'.toUInt8 h).render str (a :: rest) = .ok (str a) := by
  have hrender : (plain 's'.toUInt8 h).render str (a :: rest) =
    .ok (justify ⟨false, false⟩ 0 (if a ≠ 0 then str a else nullText)) := rfl
  rw [hrender, if_pos ha, justify_of_le _ (Nat.zero_le _)]

theorem rest_d (h : _) : (plain 'd'.toUInt8 h).rest (a :: rest) = rest := rfl

theorem rest_s (h : _) : (plain 's'.toUInt8 h).rest (a :: rest) = rest := rfl

theorem render_colon (h : _) (args : List UInt32) :
    (Piece.char ':'.toUInt8 h).render str args = .ok [':'.toUInt8] := rfl

theorem rest_colon (h : _) (args : List UInt32) : (Piece.char ':'.toUInt8 h).rest args = args := rfl

theorem pointers_s (h : _) (ha : a ≠ 0) : (plain 's'.toUInt8 h).pointers (a :: rest) = [a] := by
  have hpointers : (plain 's'.toUInt8 h).pointers (a :: rest) = [a].filter (· ≠ 0) := rfl
  rw [hpointers]
  simpa using ha

/-- The format with three numbers and three strings. -/
theorem printf_rtcFormat {m : Mem} {format p q r : UInt32} (hformat : CString m format rtcFormat) {s t u : List UInt8}
    (hp : p ≠ 0 ∧ CString m p s) (hq : q ≠ 0 ∧ CString m q t) (hr : r ≠ 0 ∧ CString m r u)
    (hshort : s.length + t.length + u.length ≤ 4) (hour min sec : UInt32) :
    printf m format [hour, p, min, q, sec, r] =
      (Except.ok (printiText hour 10 true 0 ⟨false, false⟩ 97 ++ chars ":" ++ s ++
      printiText min 10 true 0 ⟨false, false⟩ 97 ++ chars ":" ++ t ++
        printiText sec 10 true 0 ⟨false, false⟩ 97 ++ u)).map
        fun text => (text, text.length) := by
  have hend : Tail.none.Finished := trivial
  have hpointers : pointers rtcPieces [hour, p, min, q, sec, r] = [p, q, r] := by
    change [] ++ ([] ++ ((plain 's'.toUInt8 _).pointers [p, min, q, sec, r] ++ ([] ++ ([] ++
      ((plain 's'.toUInt8 _).pointers [q, sec, r] ++ ([] ++ ((plain 's'.toUInt8 _).pointers [r] ++ []))))))) = _
    rw [pointers_s _ hp.1, pointers_s _ hq.1, pointers_s _ hr.1]
    rfl
  have hstr : ∀ a ∈ pointers rtcPieces [hour, p, min, q, sec, r], CString m a (cText m a) := by
    rw [hpointers]
    simp only [List.forall_mem_cons, List.not_mem_nil, false_implies, implies_true, and_true]
    rw [cText_eq hp.2, cText_eq hq.2, cText_eq hr.2]
    exact ⟨hp.2, hq.2, hr.2⟩
  rw [printf_eq hend (spell_rtcPieces ▸ hformat) hstr]
  refine congrArg (Except.map _) ((renderInt_eq_ok_iff (by decide)).mpr ⟨?render, ?short⟩)
  case short =>
    -- no number is longer than eleven characters
    have hnumber : ∀ i : UInt32, (printiText i 10 true 0 ⟨false, false⟩ 97).length ≤ 11 := fun i =>
      printiText_length_le (.inl rfl) 0 _
    have hhour := hnumber hour
    have hmin := hnumber min
    have hsec := hnumber sec
    have hcolon : (chars ":").length = 1 := rfl
    simp only [List.length_append, hcolon]
    omega
  rw [rtcPieces]
  simp only [render, render_d, render_s _ hp.1, render_s _ hq.1, render_s _ hr.1, cText_eq hp.2, cText_eq hq.2,
    cText_eq hr.2, rest_d, rest_s, render_colon, rest_colon, ok_bind, List.append_nil, List.append_assoc]
  rfl

/-- **`rtc_print` shows the text of the clock**: `printf` formats it as it was taken to. -/
theorem printf_rtc {m : Mem} {l : Literals} (h : l.InMem m) (hourReg minReg secReg : UInt8) :
    printf m l.format (rtcArgs l hourReg minReg secReg) =
      .ok (rtcPrint hourReg minReg secReg, (rtcPrint hourReg minReg secReg).length) := by
  obtain ⟨hzero, hempty, hpm, ham⟩ := h.nonnull
  -- the strings that stand before the minutes, before the seconds and at the end
  have hpad : ∀ b : UInt8, (if b < 10 then l.zero else l.empty) ≠ 0 ∧
      CString m (if b < 10 then l.zero else l.empty) (chars (if b < 10 then "0" else "")) := fun b => by
    split
    · exact ⟨hzero, h.zero⟩
    · exact ⟨hempty, h.empty⟩
  have hhalf : ∀ pm : Bool, (if pm then l.pm else l.am) ≠ 0 ∧
      CString m (if pm then l.pm else l.am) (chars (if pm then "PM" else "AM")) := fun pm => by
    split
    · exact ⟨hpm, h.pm⟩
    · exact ⟨ham, h.am⟩
  have hrange := convert_range (asBinary hourReg)
  rw [rtcArgs, rtcPrint]
  generalize convert (asBinary hourReg).toNat = r at hrange
  obtain ⟨pm, hour⟩ := r
  have hhour : printiText ⟨BitVec.ofInt 32 hour⟩ 10 true 0 ⟨false, false⟩ 97 = decimal hour :=
    decimal_word hrange.1 (Int.lt_of_le_of_lt hrange.2 (by decide))
  have hpadShort : ∀ b : UInt8, (chars (if b < 10 then "0" else "")).length ≤ 1 := fun b => by
    split <;> decide
  have hhalfShort : (chars (if pm then "PM" else "AM")).length = 2 := by
    split <;> rfl
  have hmin := hpadShort (asBinary minReg)
  have hsec := hpadShort (asBinary secReg)
  refine (printf_rtcFormat h.format (hpad _) (hpad _) (hhalf pm) (by omega) _ _ _).trans ?_
  rw [hhour, decimal_byte, decimal_byte]
  rfl

/-- The format and the strings one after the other. -/
def literals : List UInt8 := [0] ++ (rtcFormat ++ [0]) ++ (chars "0" ++ [0]) ++ (chars "PM" ++ [0]) ++
    (chars "AM" ++ [0])

theorem literals_inMem : (⟨1, 16, 17, 18, 21⟩ : Literals).InMem (ofBytes literals) where
  format := ⟨by decide, by decide, by decide⟩
  zero := ⟨by decide, by decide, by decide⟩
  empty := ⟨by decide, by decide, by decide⟩
  pm := ⟨by decide, by decide, by decide⟩
  am := ⟨by decide, by decide, by decide⟩
  nonnull := by decide

theorem printf_rtc_literals : printf (ofBytes literals) 1 (rtcArgs ⟨1, 16, 17, 18, 21⟩ 0x12 0x34 0x56) =
    .ok (rtcPrint 0x12 0x34 0x56, (rtcPrint 0x12 0x34 0x56).length) :=
  printf_rtc literals_inMem 0x12 0x34 0x56

end MoltarOS.Drivers.Rtc
