import Mathlib.Data.Nat.Digits.Defs

/-! # Positional numerals

Big-endian digit lists and the two maps between them and the natural numbers: `readDigits`
evaluates a digit list, `numeral` writes the canonical one (no leading zero, `[0]` for zero).
`readDigits_numeral` says that reading undoes writing. -/

namespace Libio

/-- The value of a big-endian digit list in base `b`. -/
def readDigits (b : ℕ) (ds : List ℕ) : ℕ := ds.foldl (fun acc d => acc * b + d) 0

/-- The canonical big-endian numeral of `n` in base `b`. -/
def numeral (b n : ℕ) : List ℕ := if n = 0 then [0] else (Nat.digits b n).reverse

/-- Without digits the value is 0. -/
@[simp] theorem readDigits_nil (b : ℕ) : readDigits b [] = 0 := rfl

/-- A digit appended at the low end shifts the value by one place. -/
theorem readDigits_concat (b : ℕ) (ds : List ℕ) (d : ℕ) :
    readDigits b (ds ++ [d]) = readDigits b ds * b + d := by
  simp [readDigits]

/-- Big-endian reading is Mathlib's little-endian reading of the reversed list. -/
theorem readDigits_reverse (b : ℕ) (ds : List ℕ) :
    readDigits b ds.reverse = Nat.ofDigits b ds := by
  induction ds with
  | nil => rfl
  | cons d ds ih =>
      rw [List.reverse_cons, readDigits_concat, ih, Nat.ofDigits_cons]
      ring

/-- **Reading undoes writing.** -/
theorem readDigits_numeral (b n : ℕ) : readDigits b (numeral b n) = n := by
  unfold numeral
  split
  · next h => simp [readDigits, h]
  · rw [readDigits_reverse, Nat.ofDigits_digits]

/-- A numeral has at least one digit. -/
theorem numeral_ne_nil (b n : ℕ) : numeral b n ≠ [] := by
  unfold numeral
  split
  · simp
  · next h => simpa [Nat.digits_eq_nil_iff_eq_zero] using h

/-- Every digit of a numeral is below the base. -/
theorem lt_of_mem_numeral {b n d : ℕ} (hb : 1 < b) (hd : d ∈ numeral b n) : d < b := by
  unfold numeral at hd
  split at hd
  · have : d = 0 := by simpa using hd
    omega
  · exact Nat.digits_lt_base hb (List.mem_reverse.mp hd)

end Libio
