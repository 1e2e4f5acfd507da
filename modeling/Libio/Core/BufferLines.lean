import Libio.Core.BufferGrowth

/-! # Taking a line off a buffer

`pop()` of `core/buffer.hh` takes the bytes in front of the first line end off the buffer, with the
line end. What it returns is built from a C string, so it is cut at the first NUL
(`popLine_exact_iff`). -/

namespace Libio

open ByteQueue

/-- The line at the front of a text: the bytes in front of the first line-end byte, and the text
behind the line end, which is one byte or one of the pairs CR LF and LF CR. Without a line-end byte
there is no line. -/
def exactLine (c : Str) : Str × Str :=
  match c.findIdx? isEol with
  | none => ([], c)
  | some i =>
      let pair := (c.drop i).take 2 = [cr, lf] ∨ (c.drop i).take 2 = [lf, cr]
      (c.take i, c.drop (i + if pair then 2 else 1))

/-- No NUL in front of the first line-end byte. -/
def NulFree (c : Str) : Prop := ∀ i, c.findIdx? isEol = some i → (0 : UInt8) ∉ c.take i

/-- The line ends at the first byte that ends one. -/
theorem findIdx?_isEol {s : Str} {c : UInt8} (rest : Str) (hs : ∀ c ∈ s, isEol c = false)
    (hc : isEol c = true) : (s ++ c :: rest).findIdx? isEol = some s.length := by
  have hnone : s.findIdx? isEol = none := List.findIdx?_eq_none_iff.mpr hs
  rw [List.findIdx?_append, hnone, List.findIdx?_cons, hc]
  simp

/-- Two bytes that are one line end. -/
theorem take_two_eq_pair {c d : UInt8} {rest : Str} :
    ((c :: d :: rest).take 2 = [cr, lf] ∨ (c :: d :: rest).take 2 = [lf, cr]) ↔
      eolPair c d = true := by
  simp [eolPair]

/-- What is left behind the first line. -/
theorem dropEol_eq (c : UInt8) (rest : Str) :
    dropEol (c :: rest) = (c :: rest).drop
      (if (c :: rest).take 2 = [cr, lf] ∨ (c :: rest).take 2 = [lf, cr] then 2 else 1) := by
  cases rest with
  | nil => simp [dropEol]
  | cons d rest =>
      rw [dropEol]
      simp only [take_two_eq_pair]
      split <;> rfl

/-- A text without a line-end byte, or one that is cut at the first of them. -/
theorem exactLine_cases (q : Str) :
    (popLine q = ([], q) ∧ exactLine q = ([], q) ∧ NulFree q) ∨
    ∃ s, popLine q = (s.takeWhile (· != 0), (exactLine q).2) ∧ (exactLine q).1 = s ∧
      (NulFree q ↔ (0 : UInt8) ∉ s) := by
  rcases eol_cases q with hq | ⟨s, c, rest, rfl, hs, hc⟩
  · have hnone : q.findIdx? isEol = none := List.findIdx?_eq_none_iff.mpr hq
    exact .inl ⟨popLine_noEol hq, by rw [exactLine, hnone], fun i hi => by
      rw [hnone] at hi
      cases hi⟩
  · have hidx := findIdx?_isEol rest hs hc
    have htake : (s ++ c :: rest).take s.length = s := List.take_left
    have hdrop : (s ++ c :: rest).drop s.length = c :: rest := List.drop_left
    refine .inr ⟨s, ?_, ?_, fun h => htake ▸ h _ hidx, fun h i hi => ?_⟩
    · rw [popLine_eol rest hs hc, exactLine, hidx]
      simp only [← List.drop_drop, hdrop, ← dropEol_eq]
    · rw [exactLine, hidx]
      exact htake
    · obtain rfl := Option.some.inj (hidx.symm.trans hi)
      rwa [htake]

/-- A text is its part in front of the first NUL when there is none. -/
theorem takeWhile_nul_eq_iff {s : Str} : s.takeWhile (· != 0) = s ↔ (0 : UInt8) ∉ s := by
  rw [List.takeWhile_eq_self_iff]
  constructor
  · intro h h0
    simpa using h 0 h0
  · intro h c hc
    simpa using fun e : c = 0 => h (e ▸ hc)

namespace Buffer

variable {b : Buffer}

/-- **`pop()` is exact** where there is no NUL in the line. -/
theorem popLine_exact_iff (h : Inv b) :
    (∃ b', b.popLine = some ((exactLine b.content).1, b') ∧ b'.Inv ∧
      b'.content = (exactLine b.content).2) ↔ NulFree b.content := by
  obtain ⟨b', hb', hrep⟩ := h.rep.popLine
  rcases exactLine_cases b.content with ⟨hpop, hexact, hfree⟩ | ⟨s, hpop, hline, hfree⟩
  · refine iff_of_true ⟨b', ?_, hrep.toInv, ?_⟩ hfree
    · rw [hb', hpop, hexact]
    · rw [hrep.content_eq, hpop, hexact]
  · rw [hfree, ← takeWhile_nul_eq_iff, hline]
    constructor
    · rintro ⟨b₁, hb₁, -, -⟩
      rw [hb', hpop] at hb₁
      exact (Prod.mk.inj (Option.some.inj hb₁)).1
    · intro hs
      refine ⟨b', ?_, hrep.toInv, by rw [hrep.content_eq, hpop]⟩
      rw [hb', hpop, hs]

/-- A buffer that holds a line and a part of the next one. -/
theorem popLine_exact_iff_holding :
    (∃ b', (holding (str "GET\r\nab")).popLine =
        some ((exactLine (holding (str "GET\r\nab")).content).1, b') ∧ b'.Inv ∧
      b'.content = (exactLine (holding (str "GET\r\nab")).content).2) ↔
    NulFree (holding (str "GET\r\nab")).content :=
  have hcall : (holding []).call (.push none (str "GET\r\nab")) =
      some (holding (str "GET\r\nab")) := by decide +kernel
  popLine_exact_iff (reached_holding.afterPush hcall).grown.toInv

/-- Of the line `a NUL b` only `a` is returned, and the whole line is dropped. -/
theorem popLine_nul :
    Reached (holding [97, 0, 98, 13, 10]) ∧
      (holding [97, 0, 98, 13, 10]).content = [97, 0, 98, 13, 10] ∧
      exactLine [97, 0, 98, 13, 10] = ([97, 0, 98], []) ∧
      (holding [97, 0, 98, 13, 10]).popLine.map (fun p => (p.1, p.2.content)) =
        some ([97], []) := by
  have hcall : (holding []).call (.push none [97, 0, 98, 13, 10]) =
      some (holding [97, 0, 98, 13, 10]) := by decide +kernel
  exact ⟨reached_holding.afterPush hcall, by decide +kernel, by decide +kernel, by decide +kernel⟩

end Buffer

end Libio
