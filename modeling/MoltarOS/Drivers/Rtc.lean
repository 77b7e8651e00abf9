import Mathlib.Data.List.GetD
import MoltarOS.Lib.Word

/-!
# The real-time clock

`drivers/rtc.c`: the time is read in binary-coded decimal, taken five hours back and printed with an hour from 1 to 12.
What is printed is a list of characters here, formatted as `printf` formats it.

## What is proved

* `rtcPrint_eq` — what `rtc_print` prints.
* `rtcPrint_right`, `rtcPrint_wrong` — it is Eastern Standard Time exactly from 6 to 16 and from 18 to 23 hours UTC:
  the first hours of the day are morning to it, midnight is hour 0 and noon is in the morning.
-/

namespace MoltarOS.Drivers.Rtc

open MoltarOS.Lib

/-! ### The code -/

/-- `as_binary(bcd)`. -/
def asBinary (bcd : UInt8) : UInt8 := (bcd >>> 4) * 10 + (bcd &&& 0x0F)

/-- `%d`. -/
def decimal (n : ℤ) : List UInt8 := (toString n).toList.map fun c => UInt8.ofNat c.toNat

/-- `%s`. -/
def chars (str : String) : List UInt8 := str.toList.map fun c => UInt8.ofNat c.toNat

/-- `rtc_print`: whether it is afternoon, and the hour. EST is UTC-5; the remainder has the sign of the dividend. -/
def convert (hour : ℤ) : Bool × ℤ :=
  let pm := false
  let hour := (hour - 5).tmod 24
  let (pm, hour) := if hour > 12 then (true, hour - 12) else (pm, hour)
  let hour := if hour < 0 then hour + 12 else hour
  (pm, hour)

/-- `rtc_print`, with what the registers for the hour, the minute and the second hold. -/
def rtcPrint (hourReg minReg secReg : UInt8) : List UInt8 :=
  let (pm, hour) := convert (asBinary hourReg).toNat
  let min := asBinary minReg
  let sec := asBinary secReg
  decimal hour ++ chars ":" ++ chars (if min < 10 then "0" else "") ++ decimal min.toNat ++ chars ":" ++
    chars (if sec < 10 then "0" else "") ++ decimal sec.toNat ++ chars (if pm then "PM" else "AM")

/-! ### The time -/

/-- A number below 100 as a register holds it. -/
def bcd (n : ℕ) : UInt8 := UInt8.ofNat (n / 10 * 16 + n % 10)

theorem asBinary_bcd {n : ℕ} (h : n < 100) : asBinary (bcd n) = UInt8.ofNat n := by
  have hall : ∀ n < 100, asBinary (bcd n) = UInt8.ofNat n := by decide +kernel
  exact hall n h

/-- The hour of the day, UTC-5. -/
def estHour (utc : ℕ) : ℕ := (utc + 19) % 24

/-- The hour on the dial. -/
def dialHour (hour : ℕ) : ℕ := if hour % 12 = 0 then 12 else hour % 12

/-- Two digits. -/
def twoDigits (n : ℕ) : List UInt8 := [48 + UInt8.ofNat (n / 10), 48 + UInt8.ofNat (n % 10)]

/-- The hour, the minutes and the seconds, in the afternoon or not. -/
def clockText (hour min sec : ℕ) (pm : Bool) : List UInt8 :=
  decimal hour ++ chars ":" ++ twoDigits min ++ chars ":" ++ twoDigits sec ++ chars (if pm then "PM" else "AM")

/-- **Eastern Standard Time**, when it is so much UTC. -/
def estText (hour min sec : ℕ) : List UInt8 := clockText (dialHour (estHour hour)) min sec (decide (12 ≤ estHour hour))

/-- Eight characters follow the hour, -/
theorem clockText_length (hour min sec : ℕ) (pm : Bool) :
    (clockText hour min sec pm).length = (decimal hour).length + 8 := by
  cases pm <;> simp [clockText, chars, twoDigits]

theorem decimal_length {hour : ℕ} (h : hour ≤ 12) : (decimal hour).length = if hour < 10 then 1 else 2 := by
  have hall : ∀ hour ≤ 12, (decimal (hour : ℕ)).length = if hour < 10 then 1 else 2 := by decide +kernel
  exact hall hour h

/-- the seventh of them an `A` or a `P`. -/
theorem clockText_meridiem (hour min sec : ℕ) (pm : Bool) :
    (clockText hour min sec pm).getD ((decimal hour).length + 6) 0 = if pm then 80 else 65 := by
  simp only [clockText, List.append_assoc]
  rw [List.getD_append_right _ _ _ _ (Nat.le_add_right _ _), Nat.add_sub_cancel_left]
  cases pm <;> rfl

/-- All characters are printed as they are. -/
theorem clockText_shown {hour min sec : ℕ} (hh : hour ≤ 12) (hm : min < 60) (hs : sec < 60) {pm : Bool} {c : UInt8}
    (hc : c ∈ clockText hour min sec pm) : 32 < c := by
  have hall : ∀ l : List UInt8, l.all (32 < ·) → ∀ c ∈ l, 32 < c := fun l hl c hc =>
    of_decide_eq_true (List.all_eq_true.mp hl c hc)
  have hhour : ∀ hour ≤ 12, (decimal (hour : ℕ)).all (32 < ·) := by decide +kernel
  have htwo : ∀ n < 60, (twoDigits n).all (32 < ·) := by decide +kernel
  have hcolon := hall (chars ":") (by decide +kernel)
  simp only [clockText, List.mem_append] at hc
  rcases hc with ((((hc | hc) | hc) | hc) | hc) | hc
  · exact hall _ (hhour hour hh) c hc
  · exact hcolon c hc
  · exact hall _ (htwo min hm) c hc
  · exact hcolon c hc
  · exact hall _ (htwo sec hs) c hc
  · exact hall _ (by cases pm <;> decide +kernel) c hc

theorem decimal_two {n : ℕ} (h : n < 60) :
    chars (if UInt8.ofNat n < 10 then "0" else "") ++ decimal (UInt8.ofNat n).toNat = twoDigits n := by
  have hall : ∀ n < 60, chars (if UInt8.ofNat n < 10 then "0" else "") ++ decimal (UInt8.ofNat n).toNat =
      twoDigits n := by
    decide +kernel
  exact hall n h

/-- The hour that is printed. -/
def printedHour (utc : ℕ) : ℕ := if utc < 5 then utc + 7 else if utc ≤ 17 then utc - 5 else utc - 17

theorem convert_eq {hour : ℕ} (h : hour < 24) :
    convert (asBinary (bcd hour)).toNat = (decide (17 < hour), (printedHour hour : ℤ)) := by
  have hall : ∀ hour < 24, convert (asBinary (bcd hour)).toNat = (decide (17 < hour), (printedHour hour : ℤ)) := by
    decide +kernel
  exact hall hour h

/-- **What `rtc_print` prints.** -/
theorem rtcPrint_eq {hour min sec : ℕ} (hh : hour < 24) (hm : min < 60) (hs : sec < 60) :
    rtcPrint (bcd hour) (bcd min) (bcd sec) = clockText (printedHour hour) min sec (decide (17 < hour)) := by
  rw [rtcPrint, convert_eq hh, asBinary_bcd (by omega), asBinary_bcd (by omega), clockText, ← decimal_two hm,
    ← decimal_two hs]
  simp only [List.append_assoc]

theorem printedHour_le {hour : ℕ} (h : hour < 24) : printedHour hour ≤ 12 := by
  rw [printedHour]
  split_ifs <;> omega

theorem rtcPrint_length {hour min sec : ℕ} (hh : hour < 24) (hm : min < 60) (hs : sec < 60) :
    (rtcPrint (bcd hour) (bcd min) (bcd sec)).length = if printedHour hour < 10 then 9 else 10 := by
  rw [rtcPrint_eq hh hm hs, clockText_length, decimal_length (printedHour_le hh)]
  split_ifs <;> rfl

/-- Nine characters or ten. -/
theorem rtcPrint_length_le {hour min sec : ℕ} (hh : hour < 24) (hm : min < 60) (hs : sec < 60) :
    (rtcPrint (bcd hour) (bcd min) (bcd sec)).length ≤ 10 := by
  rw [rtcPrint_length hh hm hs]
  split_ifs <;> omega

/-- The hours that it gets right. -/
def Right (hour : ℕ) : Prop := 6 ≤ hour ∧ hour ≠ 17

instance : DecidablePred Right := fun hour => inferInstanceAs (Decidable (6 ≤ hour ∧ hour ≠ 17))

/-- **`rtc_print` prints Eastern Standard Time** at the right hours, -/
theorem rtcPrint_right {hour min sec : ℕ} (hh : hour < 24) (hm : min < 60) (hs : sec < 60) (hr : Right hour) :
    rtcPrint (bcd hour) (bcd min) (bcd sec) = estText hour min sec := by
  have hall : ∀ hour < 24, Right hour →
      dialHour (estHour hour) = printedHour hour ∧ decide (12 ≤ estHour hour) = decide (17 < hour) := by decide
  obtain ⟨hdial, hpm⟩ := hall hour hh hr
  rw [rtcPrint_eq hh hm hs, estText, hdial, hpm]

/-- and at the others there is a character where it does not: the first one at midnight, and else the `A` of
an `AM` that is to be a `PM`. -/
theorem rtcPrint_wrong {hour min sec : ℕ} (hh : hour < 24) (hm : min < 60) (hs : sec < 60) (hr : ¬Right hour) :
    ∃ i, i < (rtcPrint (bcd hour) (bcd min) (bcd sec)).length ∧ i < (estText hour min sec).length ∧
      (rtcPrint (bcd hour) (bcd min) (bcd sec)).getD i 0 ≠ (estText hour min sec).getD i 0 := by
  rw [rtcPrint_eq hh hm hs, estText]
  by_cases hmidnight : hour = 5
  · subst hmidnight
    refine ⟨0, ?_, ?_, ?_⟩
    · rw [clockText_length]
      exact Nat.succ_pos _
    · rw [clockText_length]
      exact Nat.succ_pos _
    · simp only [clockText, List.append_assoc]
      rw [List.getD_append _ _ _ _ (by decide +kernel), List.getD_append _ _ _ _ (by decide +kernel)]
      decide +kernel
  · have hall : ∀ hour < 24, ¬Right hour → hour ≠ 5 →
        dialHour (estHour hour) = printedHour hour ∧ decide (12 ≤ estHour hour) = true ∧
        decide (17 < hour) = false := by decide
    obtain ⟨hdial, hest, hprinted⟩ := hall hour hh hr hmidnight
    rw [hdial, hest, hprinted]
    refine ⟨(decimal (printedHour hour)).length + 6, ?_, ?_, ?_⟩
    · rw [clockText_length]
      omega
    · rw [clockText_length]
      omega
    · rw [clockText_meridiem, clockText_meridiem]
      decide

end MoltarOS.Drivers.Rtc
