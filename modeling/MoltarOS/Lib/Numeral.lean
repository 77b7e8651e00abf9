import Mathlib.Data.Nat.Digits.Lemmas

/-!
# Numerals

A number written in a base, the most significant digit first, with a character for each digit; and the reading
of such a text, which goes on to the first character that is no digit.
-/

namespace MoltarOS.Lib

variable {α : Type*} {b : ℕ}

/-- The digits of a number; none for 0. -/
def numeral (b : ℕ) (digit : ℕ → α) (n : ℕ) : List α := (Nat.digits b n).reverse.map digit

/-- The number that the digits add to `acc`. -/
def readFrom (b : ℕ) (val : α → Option ℕ) : ℕ → List α → ℕ
  | acc, [] => acc
  | acc, c :: text =>
    match val c with
    | some d => readFrom b val (acc * b + d) text
    | none => acc

section Numeral

variable {digit : ℕ → α}

@[simp] theorem numeral_zero : numeral b digit 0 = [] := by simp [numeral]

theorem numeral_eq_append (hb : 1 < b) {n : ℕ} (hn : 0 < n) :
    numeral b digit n = numeral b digit (n / b) ++ [digit (n % b)] := by
  rw [numeral, Nat.digits_def' hb hn]
  simp [numeral]

/-- One digit more goes to the front of what is there. -/
theorem numeral_append_cons (hb : 1 < b) {n : ℕ} (hn : 0 < n) (rest : List α) :
    numeral b digit n ++ rest = numeral b digit (n / b) ++ digit (n % b) :: rest := by
  rw [numeral_eq_append hb hn, List.append_assoc, List.singleton_append]

theorem numeral_length_le_iff (hb : 1 < b) {n k : ℕ} : (numeral b digit n).length ≤ k ↔ n < b ^ k := by
  rw [numeral, List.length_map, List.length_reverse, Nat.digits_length_le_iff hb]

/-- Every character is a digit. -/
theorem exists_of_mem_numeral (hb : 1 < b) {n : ℕ} {c : α} (h : c ∈ numeral b digit n) : ∃ d < b, c = digit d := by
  rw [numeral, List.mem_map] at h
  obtain ⟨d, hd, rfl⟩ := h
  exact ⟨d, Nat.digits_lt_base hb (List.mem_reverse.mp hd), rfl⟩

/-- A positive number has a first digit. -/
theorem exists_numeral_cons (digit : ℕ → α) (hb : 1 < b) {n : ℕ} (hn : 0 < n) :
    ∃ d < b, ∃ rest, numeral b digit n = digit d :: rest := by
  cases h : numeral b digit n with
  | nil =>
    rw [numeral_eq_append hb hn] at h
    exact absurd h (List.append_ne_nil_of_right_ne_nil _ (List.cons_ne_nil _ _))
  | cons c rest =>
    obtain ⟨d, hd, rfl⟩ := exists_of_mem_numeral hb (h ▸ List.mem_cons_self)
    exact ⟨d, hd, rest, rfl⟩

end Numeral

section Read

variable {val : α → Option ℕ}

theorem readFrom_cons {c : α} {d : ℕ} (h : val c = some d) (acc : ℕ) (text : List α) :
    readFrom b val acc (c :: text) = readFrom b val (acc * b + d) text := by
  rw [readFrom, h]

/-- What follows the digits is not read. -/
theorem readFrom_of_none {text : List α} (h : ∀ c ∈ text.head?, val c = none) (acc : ℕ) :
    readFrom b val acc text = acc := by
  cases text with
  | nil => rfl
  | cons c text => rw [readFrom, h c rfl]

/-- **Reading a numeral gives its number.** -/
theorem readFrom_numeral {digit : ℕ → α} (hb : 1 < b) (hdigit : ∀ d < b, val (digit d) = some d) (n : ℕ)
    (rest : List α) :
    readFrom b val 0 (numeral b digit n ++ rest) = readFrom b val n rest := by
  induction n using Nat.strong_induction_on generalizing rest with
  | _ n ih =>
    rcases Nat.eq_zero_or_pos n with rfl | hn
    · rw [numeral_zero, List.nil_append]
    · rw [numeral_append_cons hb hn, ih _ (Nat.div_lt_self hn hb), readFrom_cons (hdigit _ (Nat.mod_lt n (by omega))),
        Nat.div_add_mod']

/-- Each 0 that follows multiplies by the base. -/
theorem readFrom_replicate {z : α} (hz : val z = some 0) (k acc : ℕ) (rest : List α) :
    readFrom b val acc (List.replicate k z ++ rest) = readFrom b val (acc * b ^ k) rest := by
  induction k generalizing acc with
  | zero => simp
  | succ k ih => rw [List.replicate_succ, List.cons_append, readFrom_cons hz, ih, Nat.add_zero, pow_succ', mul_assoc]

end Read

end MoltarOS.Lib
