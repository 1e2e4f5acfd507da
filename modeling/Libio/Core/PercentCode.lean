import Libio.Core.Text
import Libio.Foundation.Loops

/-! # Percent-coding

`string_from_utf8` of `core/string.hh` undoes every percent-coding of a byte string
(`stringFromUtf8_coded`). `decodeRound` is its loop with the indices it reads: an escape that is cut
off at the end of the string is what makes it read beyond the end (`decode_reads_iff`). -/

namespace Libio

/-! ## Codings -/

/-- `a` is the hex digit of `d`, in upper or lower case. -/
def IsHexDigit (d : ℕ) (a : UInt8) : Prop :=
  (d < 10 ∧ a.toNat = 48 + d) ∨ (10 ≤ d ∧ d < 16 ∧ (a.toNat = 55 + d ∨ a.toNat = 87 + d))

/-- `PercentCoded s e`: in `e` each byte of `s` is written as itself, which `%` may not be, or as an
escape with its two hex digits. -/
inductive PercentCoded : Str → Str → Prop
  | nil : PercentCoded [] []
  | literal {c : UInt8} {s e : Str} : c ≠ 37 → PercentCoded s e → PercentCoded (c :: s) (c :: e)
  | escape {c a b : UInt8} {s e : Str} : IsHexDigit (c.toNat / 16) a → IsHexDigit (c.toNat % 16) b →
      PercentCoded s e → PercentCoded (c :: s) (37 :: a :: b :: e)

/-- A hexadecimal digit has its value. -/
theorem hexToInt_of_isHexDigit {d : ℕ} {a : UInt8} (h : IsHexDigit d a) : hexToInt a = d := by
  have hsigned : a.toNat < 128 → a.toInt8.toInt = a.toNat := by
    intro ha
    have hlt : 2 * a.toBitVec.toNat < 2 ^ 8 := by
      have hnat : a.toBitVec.toNat = a.toNat := rfl
      omega
    exact BitVec.toInt_eq_toNat_of_lt hlt
  unfold hexToInt
  simp only [UInt8.le_iff_toNat_le]
  rcases h with ⟨hd, ha⟩ | ⟨h10, h16, ha | ha⟩
  all_goals rw [hsigned (by omega)]
  · rw [if_pos (by simp; omega)]
    omega
  · rw [if_neg (by simp; omega), if_pos (by simp; omega)]
    omega
  · rw [if_neg (by simp; omega), if_neg (by simp; omega)]
    omega

/-- The two digits of a byte give it back. -/
theorem hexPair_eq {a b c : UInt8} (ha : IsHexDigit (c.toNat / 16) a)
    (hb : IsHexDigit (c.toNat % 16) b) : hexPair a b = c := by
  have hc : c.toNat < 256 := c.toNat_lt
  have hval : ((c.toNat / 16 : ℕ) : ℤ) * 16 + (c.toNat % 16 : ℕ) = c.toNat := by omega
  rw [hexPair, hexToInt_of_isHexDigit ha, hexToInt_of_isHexDigit hb, hval,
    Int.emod_eq_of_lt (by omega) (by omega), Int.toNat_natCast]
  exact UInt8.ofNat_toNat

/-- What the loop makes of a coding: the bytes that wait in the side stream go in front. -/
theorem stringFromUtf8Loop_coded {s e : Str} (h : PercentCoded s e) (flag : Bool) (ss result : Str)
    (hss : flag = false → ss = []) :
    stringFromUtf8Loop e flag ss result = .ok (result ++ ss ++ s) := by
  induction h generalizing flag ss result with
  | nil => cases flag <;> simp_all [stringFromUtf8Loop]
  | literal hc _ ih =>
      rw [stringFromUtf8Loop.eq_def]
      cases flag with
      | true => simp [hc, ih]
      | false => simp [hc, ih, hss]
  | escape ha hb _ ih =>
      rw [stringFromUtf8Loop.eq_def]
      simp [hexPair_eq ha hb, ih]

/-- **Decoding undoes every coding.** -/
theorem stringFromUtf8_coded {s e : Str} (h : PercentCoded s e) : stringFromUtf8 e = .ok s :=
  stringFromUtf8Loop_coded h false [] [] fun _ => rfl

/-- A slash and a byte above `0x7f`, escaped in two cases, behind a literal byte. -/
theorem stringFromUtf8_coded_mixed : stringFromUtf8 (str "a%2F%e4") = .ok [97, 47, 228] :=
  stringFromUtf8_coded (.literal (by decide) (.escape (by unfold IsHexDigit; decide)
    (by unfold IsHexDigit; decide) (.escape (by unfold IsHexDigit; decide)
      (by unfold IsHexDigit; decide) .nil)))

/-! ## What is read -/

/-- The variables of `string_from_utf8`, and the indices it has read its argument at. -/
structure Decoding where
  i : ℕ := 0
  flag : Bool := false
  ss : Str := []
  result : Str := []
  reads : List ℕ := []
  deriving DecidableEq

/-- One round of the loop of `string_from_utf8`. `in[n]` is the terminating NUL, and whatever a read
beyond it gives, the loop ends with that round. -/
def decodeRound (s : Str) : Loop Decoding Decoding := fun d =>
  if d.i < s.length then
    if s.getD d.i 0 = 37 then
      .next { d with
        i := d.i + 3
        flag := true
        ss := d.ss ++ [hexPair (s.getD (d.i + 1) 0) (s.getD (d.i + 2) 0)]
        reads := d.reads ++ [d.i, d.i + 1, d.i + 2] }
    else
      .next { d with
        i := d.i + 1
        flag := false
        ss := if d.flag then [] else d.ss
        result := (if d.flag then d.result ++ d.ss else d.result) ++ [s.getD d.i 0]
        reads := d.reads ++ [d.i] }
  else .done { d with result := if d.flag then d.result ++ d.ss else d.result }

/-- Some `%` that no earlier escape takes up has fewer than two bytes behind it. -/
def cutEscape : Str → Bool
  | [] => false
  | x :: rest =>
      if x = 37 then
        match rest with
        | _ :: _ :: rest => cutEscape rest
        | _ => true
      else cutEscape rest

/-- The loop ends, for each round that goes on brings it closer to the end of the string. -/
theorem decode_ends (s : Str) (d : Decoding) : ∃ n e, (decodeRound s).Ends d n e := by
  obtain ⟨n, e, h, -⟩ := Loop.ends_of_measure (f := decodeRound s) (I := fun _ => True)
    (μ := fun d => s.length - d.i) (s := d) (by
      intro d d' _ hnext
      unfold decodeRound at hnext
      split at hnext
      · split at hnext
        · obtain rfl := Round.next.inj hnext
          exact ⟨trivial, by simp only; omega⟩
        · obtain rfl := Round.next.inj hnext
          exact ⟨trivial, by simp only; omega⟩
      · cases hnext) trivial
  exact ⟨n, e, h⟩

/-- A round at a percent sign reads two more characters. -/
theorem decodeRound_escape {s : Str} {d : Decoding} (hd : d.i < s.length)
    (hx : s.getD d.i 0 = 37) : decodeRound s d = .next { d with
      i := d.i + 3
      flag := true
      ss := d.ss ++ [hexPair (s.getD (d.i + 1) 0) (s.getD (d.i + 2) 0)]
      reads := d.reads ++ [d.i, d.i + 1, d.i + 2] } := by
  rw [decodeRound, if_pos hd, if_pos hx]

/-- A round at another character takes it over. -/
theorem decodeRound_literal {s : Str} {d : Decoding} (hd : d.i < s.length)
    (hx : s.getD d.i 0 ≠ 37) : decodeRound s d = .next { d with
      i := d.i + 1
      flag := false
      ss := if d.flag then [] else d.ss
      result := (if d.flag then d.result ++ d.ss else d.result) ++ [s.getD d.i 0]
      reads := d.reads ++ [d.i] } := by
  rw [decodeRound, if_pos hd, if_neg hx]

/-- The loop ends at the end of the string. -/
theorem decodeRound_end {s : Str} {d : Decoding} (hd : s.length ≤ d.i) : decodeRound s d =
    .done { d with result := if d.flag then d.result ++ d.ss else d.result } :=
  if_neg (not_lt.mpr hd)

/-- The byte of a string at a position behind its first part. -/
theorem getD_append_add (pre rest : Str) (k : ℕ) :
    (pre ++ rest).getD (pre.length + k) 0 = rest.getD k 0 := by
  rw [List.getD_eq_getElem?_getD, List.getD_eq_getElem?_getD,
    List.getElem?_append_right (Nat.le_add_right _ _), Nat.add_sub_cancel_left]

/-- The loop goes through the rest of a string as it should: it reads inside the string exactly when
no escape in the rest is cut off, and it computes what `stringFromUtf8` does. -/
def Decodes (pre rest : Str) (flag : Bool) (ss result : Str) (reads : List ℕ) : Prop :=
  ∃ n e new, (decodeRound (pre ++ rest)).Ends ⟨pre.length, flag, ss, result, reads⟩ n e ∧
    e.reads = reads ++ new ∧
    ((∀ i ∈ new, i < (pre ++ rest).length) ↔ cutEscape rest = false) ∧
    ∀ t, stringFromUtf8Loop rest flag ss result = .ok t → e.result = t

/-- A whole escape: the three bytes are inside the string. -/
theorem Decodes.escape {pre rest ss result : Str} {a b : UInt8} {reads : List ℕ} (flag : Bool)
    (h : Decodes (pre ++ [37, a, b]) rest true (ss ++ [hexPair a b]) result
      (reads ++ [pre.length, pre.length + 1, pre.length + 2])) :
    Decodes pre (37 :: a :: b :: rest) flag ss result reads := by
  obtain ⟨n, e, new, he, hreads, hin, hresult⟩ := h
  have h0 := getD_append_add pre (37 :: a :: b :: rest) 0
  have h1 := getD_append_add pre (37 :: a :: b :: rest) 1
  have h2 := getD_append_add pre (37 :: a :: b :: rest) 2
  have hround := decodeRound_escape (s := pre ++ 37 :: a :: b :: rest)
    (d := ⟨pre.length, flag, ss, result, reads⟩) (by simp) h0
  have hcut : cutEscape (37 :: a :: b :: rest) = cutEscape rest := by
    rw [cutEscape.eq_def]
    simp
  simp only [h1, h2] at hround
  rw [List.append_assoc] at he hin hreads
  rw [List.length_append] at he
  refine ⟨n + 1, e, _, he.next hround, hreads, ?_, ?_⟩
  · rw [hcut, ← hin, List.forall_mem_append]
    refine and_iff_right fun i hi => ?_
    simp only [List.length_append, List.length_cons, List.mem_cons, List.not_mem_nil,
      or_false] at hi ⊢
    omega
  · rw [stringFromUtf8Loop.eq_def]
    simpa using hresult

/-- A byte that starts no escape. -/
theorem Decodes.literal {pre rest ss result : Str} {x : UInt8} {flag : Bool} {reads : List ℕ}
    (hx : x ≠ 37) (h : Decodes (pre ++ [x]) rest false (if flag = true then [] else ss)
      ((if flag = true then result ++ ss else result) ++ [x]) (reads ++ [pre.length])) :
    Decodes pre (x :: rest) flag ss result reads := by
  obtain ⟨n, e, new, he, hreads, hin, hresult⟩ := h
  have h0 : (pre ++ x :: rest).getD pre.length 0 = x := getD_append_add pre (x :: rest) 0
  have hround := decodeRound_literal (s := pre ++ x :: rest)
    (d := ⟨pre.length, flag, ss, result, reads⟩) (by simp) (fun h => hx (h0.symm.trans h))
  have hcut : cutEscape (x :: rest) = cutEscape rest := by
    rw [cutEscape.eq_def]
    simp [hx]
  simp only [h0] at hround
  rw [List.append_assoc] at he hin hreads
  rw [List.length_append] at he
  refine ⟨n + 1, e, _, he.next hround, hreads, ?_, ?_⟩
  · rw [hcut, ← hin, List.forall_mem_append]
    refine and_iff_right fun i hi => ?_
    simp only [List.length_append, List.length_cons, List.mem_singleton] at hi ⊢
    omega
  · rw [stringFromUtf8Loop.eq_def]
    cases flag <;> simpa [hx] using hresult

/-- **What the loop does with the rest of a string.** -/
theorem decode_rest (pre rest : Str) (flag : Bool) (ss result : Str) (reads : List ℕ) :
    Decodes pre rest flag ss result reads := by
  induction rest, flag, ss, result using stringFromUtf8Loop.induct generalizing pre reads with
  | case1 flag ss result =>
      refine ⟨0, _, [], .done (decodeRound_end (by simp)), by simp, by simp [cutEscape], ?_⟩
      intro t ht
      exact Except.ok.inj ht
  | case2 flag ss result a b rest ih => exact (ih _ _).escape flag
  | case3 flag ss result a =>
      -- the second digit is the terminating NUL
      have h0 := getD_append_add pre [37, a] 0
      have h1 := getD_append_add pre [37, a] 1
      have h2 := getD_append_add pre [37, a] 2
      have hround := decodeRound_escape (s := pre ++ [37, a])
        (d := ⟨pre.length, flag, ss, result, reads⟩) (by simp) h0
      simp only [h1, h2] at hround
      refine ⟨1, _, _, .next hround (.done (decodeRound_end (by simp))), rfl, ?_, ?_⟩
      · simp [cutEscape]
      · intro t ht
        rw [stringFromUtf8Loop.eq_def] at ht
        simpa using ht
  | case4 flag ss result =>
      have h0 := getD_append_add pre [37] 0
      have hround := decodeRound_escape (s := pre ++ [37])
        (d := ⟨pre.length, flag, ss, result, reads⟩) (by simp) h0
      refine ⟨1, _, _, .next hround (.done (decodeRound_end (by simp))), rfl, ?_, ?_⟩
      · simp [cutEscape]
      · intro t ht
        rw [stringFromUtf8Loop.eq_def] at ht
        cases ht
  | case5 x rest ss result hx ih => exact .literal hx (ih _ _)
  | case6 x rest flag ss result hx hflag ih =>
      obtain rfl : flag = false := by simpa using hflag
      exact .literal hx (ih _ _)

/-- **Decoding ends, and reads inside its argument** exactly when no escape is cut off. -/
theorem decode_reads_iff (s : Str) :
    ((∃ n e, (decodeRound s).Ends {} n e) ∧
      ∀ n e, (decodeRound s).Ends {} n e → ∀ i ∈ e.reads, i < s.length) ↔
    cutEscape s = false := by
  obtain ⟨m, e', new, he', hreads, hin, -⟩ := decode_rest [] s false [] [] []
  rw [List.nil_append] at hreads
  rw [and_iff_right (decode_ends s {}), ← hin]
  constructor
  · intro h i hi
    exact h m e' he' i (hreads ▸ hi)
  · intro h n e he i hi
    obtain rfl := he'.unique he
    exact h i (hreads ▸ hi)

/-- A lone `%` makes the loop read at 1, the terminating NUL, and at 2. -/
theorem decode_reads_percent :
    (∃ n, (decodeRound (str "%")).Ends {} n
      { i := 3, flag := true, ss := [57], result := [57], reads := [0, 1, 2] }) ∧
    ¬∀ i ∈ [0, 1, 2], i < (str "%").length := by
  have hrun : (decodeRound (str "%")).run 2 {} = some
      { i := 3, flag := true, ss := [57], result := [57], reads := [0, 1, 2] } := by
    decide +kernel
  obtain ⟨n, -, hends⟩ := Loop.run_eq_some.mp hrun
  exact ⟨⟨n, hends⟩, by decide⟩

end Libio
