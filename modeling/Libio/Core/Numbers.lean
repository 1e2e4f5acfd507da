import Libio.Core.Text
import Mathlib.Tactic.IntervalCases

/-! # Numeric conversions

`std::to_string` and `std::hex` output on one side, `std::stol` and `std::stoi` on the other. The
conversions skip leading white space, take a sign, in base 16 an optional `0x`, and the longest run
of digits; what follows the digits is ignored, no digits at all or a value outside the result type
throws. -/

namespace Libio

/-- The value of a byte as a digit of a base up to 36. -/
def digitVal (c : UInt8) : Option ℕ :=
  if 48 ≤ c ∧ c ≤ 57 then some (c.toNat - 48)
  else if 65 ≤ c ∧ c ≤ 90 then some (c.toNat - 55)
  else if 97 ≤ c ∧ c ≤ 122 then some (c.toNat - 87)
  else none

/-- Whether a byte is a digit of base `b`. -/
def isDigit (b : ℕ) (c : UInt8) : Bool := (digitVal c).any (· < b)

/-- The lower-case digit of value `d`. -/
def digitChar (d : ℕ) : UInt8 := if d < 10 then UInt8.ofNat (48 + d) else UInt8.ofNat (87 + d)

/-- `std::isspace` in the C locale. -/
def isspace (c : UInt8) : Bool := c ∈ ws

/-- The number a digit string denotes. -/
def digitsVal (b : ℕ) (ds : Str) : ℕ := readDigits b (ds.map fun c => (digitVal c).getD 0)

/-- An optional sign in front of the digits: whether it is a minus, and what follows it. -/
def strtolSign : Str → Bool × Str
  | c :: s => if c = 45 then (true, s) else if c = 43 then (false, s) else (false, c :: s)
  | [] => (false, [])

/-- In base 16 a `0x` or `0X` in front of a digit is skipped. -/
def strtolSkip0x (b : ℕ) : Str → Str
  | z :: x :: c :: s =>
      if b = 16 ∧ z = 48 ∧ (x = 120 ∨ x = 88) ∧ isDigit 16 c then c :: s else z :: x :: c :: s
  | s => s

/-- The value and the unread rest of the leading number of a string, if it has one. -/
def strtol (b : ℕ) (s : Str) : Option (ℤ × Str) :=
  let (neg, t) := strtolSign (s.dropWhile isspace)
  let t := strtolSkip0x b t
  let ds := t.takeWhile (isDigit b)
  if ds = [] then none
  else
    let v : ℤ := digitsVal b ds
    some (if neg then -v else v, t.drop ds.length)

/-- The smallest `long`. -/
def longMin : ℤ := -2 ^ 63

/-- The largest `long`. -/
def longMax : ℤ := 2 ^ 63 - 1

/-- The smallest `int`. -/
def intMin : ℤ := -2 ^ 31

/-- The largest `int`. -/
def intMax : ℤ := 2 ^ 31 - 1

/-- A checked conversion to the integer type with the bounds `lo` and `hi`. -/
def convert (b : ℕ) (lo hi : ℤ) (s : Str) : Except Fault ℤ :=
  match strtol b s with
  | none => .error .invalidArgument
  | some (v, _) => if lo ≤ v ∧ v ≤ hi then .ok v else .error .outOfRange

/-- A conversion that does not return throws one of its two exceptions. -/
theorem convert_error {b : ℕ} {lo hi : ℤ} {s : Str} {e : Fault} (h : convert b lo hi s = .error e) :
    e ≠ .undefined := by
  unfold convert at h
  split at h
  · obtain rfl := Except.error.inj h
    decide
  · split at h
    · cases h
    · obtain rfl := Except.error.inj h
      decide

/-- `std::stol(s, 0, base)`. -/
def stol (b : ℕ) (s : Str) : Except Fault ℤ := convert b longMin longMax s

/-- `std::stoi(s)`. -/
def stoi (s : Str) : Except Fault ℤ := convert 10 intMin intMax s

/-- The digits of `n` in base `b`. -/
def render (b n : ℕ) : Str := (numeral b n).map digitChar

/-- `std::to_string(n)`. -/
def stdToString (n : ℤ) : Str := if n < 0 then str "-" ++ render 10 n.natAbs else render 10 n.natAbs

/-- `std::hex` output of `n`. -/
def hex (n : ℕ) : Str := render 16 n

/-! ## Reading back a digit string -/

/-- The value of the character of a digit is the digit. -/
theorem digitVal_digitChar {d : ℕ} (h : d < 16) : digitVal (digitChar d) = some d := by
  interval_cases d <;> rfl

/-- The character of a digit is one. -/
theorem isDigit_digitChar {b d : ℕ} (hb : b ≤ 16) (h : d < b) : isDigit b (digitChar d) := by
  simp [isDigit, digitVal_digitChar (h.trans_le hb), h]

/-- A digit is neither a space nor a sign nor a line end. -/
theorem isDigit_spec {b : ℕ} {c : UInt8} (h : isDigit b c) :
    isspace c = false ∧ c ≠ 45 ∧ c ≠ 43 ∧ c ≠ cr ∧ c ≠ lf ∧ c ≠ 0 := by
  have hbad : ∀ k ∈ ws ++ [45, 43, cr, lf, 0], digitVal k = none := by decide +kernel
  have hc : c ∉ ws ++ [45, 43, cr, lf, 0] := by
    intro hc
    simp [isDigit, hbad c hc] at h
  simpa [isspace] using hc

/-- A digit string is handed out whole by the line reader. -/
theorem plain_of_isDigit {b : ℕ} {ds : Str} (h : ∀ c ∈ ds, isDigit b c) : Plain ds :=
  fun c hc => (isDigit_spec (h c hc)).2.2.2

/-- What may follow a digit string so that the conversion stops at its end. -/
def StopsDigits (b : ℕ) (t : Str) : Prop := ∀ c ∈ t.head?, isDigit b c = false ∧ c ≠ 120 ∧ c ≠ 88

/-- The end of a text stops the digits. -/
@[simp] theorem stopsDigits_nil (b : ℕ) : StopsDigits b [] := by simp [StopsDigits]

/-- The digits of a text that starts with digits. -/
theorem takeWhile_digits {b : ℕ} {ds t : Str} (h : ∀ c ∈ ds, isDigit b c) (ht : StopsDigits b t) :
    (ds ++ t).takeWhile (isDigit b) = ds := by
  rw [List.takeWhile_append_of_pos h]
  cases t with
  | nil => simp
  | cons c t => simp [(ht c rfl).1]

/-- A text of digits is no prefix `0x`. -/
theorem strtolSkip0x_digits {b : ℕ} {ds t : Str} (hds : ds ≠ []) (h : ∀ c ∈ ds, isDigit b c)
    (ht : StopsDigits b t) : strtolSkip0x b (ds ++ t) = ds ++ t := by
  match ds, t with
  | [], _ => exact absurd rfl hds
  | [_], [] => rfl
  | [_], [_] => rfl
  | [d], x :: y :: t =>
      have hx := ht x rfl
      simp [strtolSkip0x, hx.2.1, hx.2.2]
  | [_, _], [] => rfl
  | d :: x :: ds, t =>
      have hx : x ≠ 120 ∧ x ≠ 88 ∨ b ≠ 16 := by
        by_cases hb : b = 16
        · have hd := h x (by simp)
          subst hb
          left
          constructor <;> rintro rfl <;> revert hd <;> decide
        · exact .inr hb
      cases hs : ds ++ t with
      | nil => simp [hs, strtolSkip0x]
      | cons y s =>
          rcases hx with hx | hx <;> simp [hs, strtolSkip0x, hx]

/-- **The leading number of a digit string** is its value, and the rest is what follows it. -/
theorem strtol_digits {b : ℕ} {ds t : Str} (hds : ds ≠ []) (h : ∀ c ∈ ds, isDigit b c)
    (ht : StopsDigits b t) : strtol b (ds ++ t) = some ((digitsVal b ds : ℤ), t) := by
  obtain ⟨d, ds', rfl⟩ := List.exists_cons_of_ne_nil hds
  obtain ⟨hsp, hm, hp, -⟩ := isDigit_spec (h d (by simp))
  have hdrop : (d :: ds' ++ t).dropWhile isspace = d :: ds' ++ t := by simp [hsp]
  have hsign : strtolSign (d :: ds' ++ t) = (false, d :: ds' ++ t) := by
    simp [strtolSign, hm, hp]
  simp only [strtol, hdrop, hsign, strtolSkip0x_digits hds h ht, takeWhile_digits h ht]
  simp

/-- A text of digits in range is converted to its value. -/
theorem convert_digits {b : ℕ} {lo hi : ℤ} {ds t : Str} (hds : ds ≠ [])
    (h : ∀ c ∈ ds, isDigit b c) (ht : StopsDigits b t) (hlo : lo ≤ 0)
    (hhi : (digitsVal b ds : ℤ) ≤ hi) : convert b lo hi (ds ++ t) = .ok (digitsVal b ds : ℤ) := by
  have : lo ≤ (digitsVal b ds : ℤ) := by omega
  simp [convert, strtol_digits hds h ht, this, hhi]

/-- White space in front of a number is skipped. -/
theorem strtol_spaces {b : ℕ} {pre : Str} (hpre : ∀ c ∈ pre, isspace c) (s : Str) :
    strtol b (pre ++ s) = strtol b s := by
  rw [strtol, List.dropWhile_append_of_pos hpre]
  rfl

/-- A sign in front of a digit string is taken into the value, and the rest is what follows. -/
theorem strtol_signed {b : ℕ} {sign ds t : Str} (hsign : sign ∈ [str "", str "+", str "-"])
    (hds : ds ≠ []) (h : ∀ c ∈ ds, isDigit b c) (ht : StopsDigits b t) :
    strtol b (sign ++ (ds ++ t)) =
      some (if sign = str "-" then -(digitsVal b ds : ℤ) else digitsVal b ds, t) := by
  have hskip : strtolSkip0x b (ds ++ t) = ds ++ t := strtolSkip0x_digits hds h ht
  have htake : (ds ++ t).takeWhile (isDigit b) = ds := takeWhile_digits h ht
  have hminus : strtolSign ((str "-" ++ (ds ++ t)).dropWhile isspace) = (true, ds ++ t) := rfl
  have hplus : strtolSign ((str "+" ++ (ds ++ t)).dropWhile isspace) = (false, ds ++ t) := rfl
  simp only [List.mem_cons, List.not_mem_nil, or_false] at hsign
  rcases hsign with rfl | rfl | rfl
  · rw [if_neg (by decide)]
    exact strtol_digits hds h ht
  · simp only [strtol, hplus, hskip, htake, if_neg hds, if_neg (show str "+" ≠ str "-" by decide)]
    simp
  · simp only [strtol, hminus, hskip, htake, if_neg hds]
    simp

/-! ## Reading back a rendered number -/

/-- A rendered number consists of digits. -/
theorem isDigit_of_mem_render {b n : ℕ} (hb : 1 < b) (hb' : b ≤ 16) :
    ∀ c ∈ render b n, isDigit b c := by
  intro c hc
  obtain ⟨d, hd, rfl⟩ := List.mem_map.mp hc
  exact isDigit_digitChar hb' (lt_of_mem_numeral hb hd)

/-- A rendered number is not empty. -/
theorem render_ne_nil (b n : ℕ) : render b n ≠ [] := by
  simp [render, numeral_ne_nil]

/-- The value of a rendered number is the number. -/
theorem digitsVal_render {b : ℕ} (n : ℕ) (hb : 1 < b) (hb' : b ≤ 16) :
    digitsVal b (render b n) = n := by
  have : (render b n).map (fun c => (digitVal c).getD 0) = numeral b n := by
    rw [render, List.map_map]
    conv_rhs => rw [← List.map_id (numeral b n)]
    apply List.map_congr_left
    intro d hd
    simp [digitVal_digitChar ((lt_of_mem_numeral hb hd).trans_le hb')]
  rw [digitsVal, this, readDigits_numeral]

/-- A rendered number has no line end and no NUL. -/
theorem plain_render {b n : ℕ} (hb : 1 < b) (hb' : b ≤ 16) : Plain (render b n) :=
  plain_of_isDigit (isDigit_of_mem_render hb hb')

/-- So has one in hexadecimal digits. -/
theorem plain_hex (n : ℕ) : Plain (hex n) := plain_render (by decide) (by decide)

/-- **`stol` undoes the rendering of a number that fits a `long`.** -/
theorem stol_render {b n : ℕ} (hb : 1 < b) (hb' : b ≤ 16) (hn : (n : ℤ) ≤ longMax) :
    stol b (render b n) = .ok n := by
  have hval := digitsVal_render n hb hb'
  have hle : (digitsVal b (render b n) : ℤ) ≤ longMax := by rw [hval]; exact hn
  have := convert_digits (render_ne_nil b n) (isDigit_of_mem_render hb hb') (stopsDigits_nil b)
    (show longMin ≤ 0 by decide) hle
  rwa [List.append_nil, hval] at this

/-- A rendered number beyond the range of `long` is refused. -/
theorem stol_render_of_gt {b n : ℕ} (hb : 1 < b) (hb' : b ≤ 16) (hn : longMax < n) :
    stol b (render b n) = .error .outOfRange := by
  have hdigits := strtol_digits (render_ne_nil b n) (isDigit_of_mem_render hb hb') (stopsDigits_nil b)
  rw [List.append_nil, digitsVal_render n hb hb'] at hdigits
  have hout : ¬(longMin ≤ (n : ℤ) ∧ (n : ℤ) ≤ longMax) := by omega
  simp [stol, convert, hdigits, hout]

/-- **`stol` undoes `std::to_string`** of a length that fits a `long`. -/
theorem stol_stdToString {n : ℕ} (hn : (n : ℤ) ≤ longMax) : stol 10 (stdToString n) = .ok n := by
  rw [stdToString, if_neg (by omega), Int.natAbs_natCast]
  exact stol_render (by decide) (by decide) hn

/-- A length is written without white space. -/
theorem not_space_stdToString (n : ℕ) : ∀ c ∈ stdToString n, c ∉ ws := by
  rw [stdToString, if_neg (by omega)]
  intro c hc
  have := (isDigit_spec (isDigit_of_mem_render (b := 10) (by decide) (by decide) c hc)).1
  simpa [isspace] using this

/-- A number has no blank at its ends. -/
theorem noEdgeSpace_stdToString (n : ℕ) : NoEdgeSpace (stdToString n) :=
  noEdgeSpace_of_forall (not_space_stdToString n)

/-- The text of a number is not empty. -/
theorem stdToString_ne_nil (n : ℕ) : stdToString n ≠ [] := by
  rw [stdToString, if_neg (by omega)]
  exact render_ne_nil 10 _

/-- **`stoi` undoes `std::to_string`** on the non-negative values of an `int`. -/
theorem stoi_stdToString {n : ℤ} (h0 : 0 ≤ n) (hn : n ≤ intMax) : stoi (stdToString n) = .ok n := by
  have hneg : ¬n < 0 := by omega
  have habs : (n.natAbs : ℤ) = n := by omega
  have hval : (digitsVal 10 (render 10 n.natAbs) : ℤ) = n := by
    rw [digitsVal_render _ (by decide) (by decide), habs]
  have hle : (digitsVal 10 (render 10 n.natAbs) : ℤ) ≤ intMax := by rw [hval]; exact hn
  have := convert_digits (render_ne_nil 10 n.natAbs)
    (isDigit_of_mem_render (by decide) (by decide)) (stopsDigits_nil 10)
    (show intMin ≤ 0 by decide) hle
  rw [List.append_nil, hval] at this
  rw [stdToString, if_neg hneg]
  exact this

end Libio
