import Libio.Core.Buffer

/-! # The byte queue a buffer stands for

What `core/buffer.hh` is for: a queue of bytes. A buffer's meaning is its contents `buf_[0 ..
off_)`, and each operation is a list function on contents. `BufferRefinement` proves that the class
computes these functions; the HTTP module is modelled on them. -/

namespace Libio

namespace ByteQueue

/-- How many bytes `push(input, length)` moves: `-1` and every length outside `0 .. off_` mean
all. -/
def clamp (q : Str) (length : ℤ) : ℕ :=
  if length = -1 ∨ length > q.length ∨ length < 0 then q.length else length.toNat

/-- Move bytes from the front of `src` to the end of `dst`. -/
def move (dst src : Str) (length : ℤ) : Str × Str :=
  (dst ++ src.take (clamp src length), src.drop (clamp src length))

/-- The rest of a queue behind the line end at its front. -/
def dropEol : Str → Str
  | c :: d :: rest => if eolPair c d then rest else d :: rest
  | _ => []

/-- Cut the first line off: the text before the first line-end byte, up to its first NUL, and the
queue behind the line end. Without a line end the text is empty and the queue stays as it is. -/
def popLine (q : Str) : Str × Str :=
  let text := q.takeWhile fun c => !isEol c
  if text.length = q.length then ([], q)
  else (text.takeWhile (· != 0), dropEol (q.drop text.length))

end ByteQueue

open ByteQueue

/-! ## Taking lines off a queue -/

/-- A queue that starts with a text without line-end bytes. -/
theorem takeWhile_eol {s : Str} (rest : Str) (hs : ∀ c ∈ s, isEol c = false)
    (hrest : ∀ c ∈ rest.head?, isEol c = true) :
    (s ++ rest).takeWhile (fun c => !isEol c) = s := by
  rw [List.takeWhile_append_of_pos (by simpa using hs)]
  cases rest with
  | nil => simp
  | cons c rest => simp [hrest c rfl]

/-- A plain text has no line end in it. -/
theorem Plain.isEol {s : Str} (h : Plain s) : ∀ c ∈ s, isEol c = false := by
  intro c hc
  obtain ⟨h1, h2, -⟩ := h c hc
  simp [Libio.isEol, h1, h2]

/-- A plain text is a C string as it is. -/
theorem Plain.takeWhile_nul {s : Str} (h : Plain s) : s.takeWhile (· != 0) = s := by
  rw [List.takeWhile_eq_self_iff]
  intro c hc
  simpa using (h c hc).2.2

/-- A line followed by a line end is cut off as the text up to its first NUL. -/
theorem popLine_eol {s : Str} (rest : Str) {c : UInt8} (hs : ∀ c ∈ s, isEol c = false)
    (hc : isEol c = true) :
    popLine (s ++ c :: rest) = (s.takeWhile (· != 0), dropEol (c :: rest)) := by
  have htext : (s ++ c :: rest).takeWhile (fun c => !isEol c) = s :=
    takeWhile_eol _ hs (by simp [hc])
  simp [popLine, htext]

/-- **A whole line.** A text without line-end bytes and NULs, followed by `"\r\n"`, is handed out
unchanged, and exactly the line end goes with it. -/
theorem popLine_crlf {s : Str} (hs : Plain s) (rest : Str) :
    popLine (s ++ (crlf ++ rest)) = (s, rest) := by
  have := popLine_eol (lf :: rest) (c := cr) hs.isEol (by decide)
  rw [show s ++ (crlf ++ rest) = s ++ cr :: lf :: rest from rfl, this, hs.takeWhile_nul]
  rfl

/-- Without a line end nothing is taken off. -/
theorem popLine_noEol {q : Str} (hq : ∀ c ∈ q, isEol c = false) : popLine q = ([], q) := by
  have htext : q.takeWhile (fun c => !isEol c) = q := by
    simpa using takeWhile_eol [] hq (by simp)
  simp [popLine, htext]

/-- Dropping a line end takes a byte at least. -/
theorem length_dropEol_lt {c : UInt8} {q : Str} : (dropEol (c :: q)).length < (c :: q).length := by
  match q with
  | [] => simp [dropEol]
  | d :: q =>
      simp only [dropEol]
      split <;> simp only [List.length_cons] <;> omega

/-- A queue either has no line end, or is a text in front of one. -/
theorem eol_cases (q : Str) : (∀ c ∈ q, isEol c = false) ∨
    ∃ s c rest, q = s ++ c :: rest ∧ (∀ c ∈ s, isEol c = false) ∧ isEol c = true := by
  induction q with
  | nil => simp
  | cons x q ih =>
      cases hx : isEol x with
      | true => exact .inr ⟨[], x, q, rfl, by simp, hx⟩
      | false =>
          rcases ih with ih | ⟨s, c, rest, rfl, hs, hc⟩
          · exact .inl (by simpa [hx] using ih)
          · exact .inr ⟨x :: s, c, rest, rfl, by simpa [hx] using hs, hc⟩

/-- Taking a line off leaves the end of the queue. -/
theorem popLine_suffix (q : Str) : (popLine q).2 <:+ q := by
  have hdrop : ∀ t, dropEol t <:+ t := by
    intro t
    match t with
    | [] => exact List.suffix_rfl
    | [c] => exact List.nil_suffix
    | c :: d :: rest =>
        simp only [dropEol]
        split
        · exact (List.suffix_cons d rest).trans (List.suffix_cons c _)
        · exact List.suffix_cons c _
  unfold popLine
  simp only
  split
  · exact List.suffix_rfl
  · exact (hdrop _).trans (List.drop_suffix _ q)

/-- A line that is not empty was really taken off. -/
theorem length_popLine_lt {q : Str} (h : (popLine q).1 ≠ []) : (popLine q).2.length < q.length := by
  rcases eol_cases q with hq | ⟨s, c, rest, rfl, hs, hc⟩
  · rw [popLine_noEol hq] at h
    exact absurd rfl h
  · rw [popLine_eol rest hs hc]
    have := length_dropEol_lt (c := c) (q := rest)
    simp only [List.length_append]
    omega

/-- A line starts with the first byte of the queue. -/
theorem head?_popLine {q rest line : Str} {c : UInt8} (h : popLine q = (c :: line, rest)) :
    c ∈ q.head? := by
  rcases eol_cases q with hq | ⟨s, d, rest', rfl, hs, hd⟩
  · simp [popLine_noEol hq] at h
  · rw [popLine_eol rest' hs hd] at h
    cases s with
    | nil => simp at h
    | cons x s =>
        by_cases hx : x = 0
        · simp [hx] at h
        · simp only [Prod.mk.injEq, List.takeWhile_cons, bne_iff_ne, ne_eq, hx, not_false_eq_true,
            if_true, List.cons.injEq] at h
          simp [h.1.1]

/-! ## Moving bytes -/

/-- A length within the queue is kept. -/
theorem clamp_of_le {q : Str} {n : ℕ} (h : n ≤ q.length) : clamp q n = n := by
  have : ¬((n : ℤ) = -1 ∨ (n : ℤ) > q.length ∨ (n : ℤ) < 0) := by omega
  rw [clamp, if_neg this, Int.toNat_natCast]

/-- A length beyond the queue is cut down. -/
theorem clamp_of_ge {q : Str} {n : ℤ} (h : q.length ≤ n) : clamp q n = q.length := by
  unfold clamp
  split
  · rfl
  · omega

/-- What is taken is within the queue. -/
theorem clamp_le (q : Str) (n : ℤ) : clamp q n ≤ q.length := by
  unfold clamp
  split
  · exact le_rfl
  · omega

/-- A move of the length of a first part takes exactly that part. -/
theorem move_append (dst s rest : Str) {n : ℤ} (hn : n = s.length) :
    move dst (s ++ rest) n = (dst ++ s, rest) := by
  subst hn
  simp [move, clamp_of_le (q := s ++ rest) (n := s.length) (by simp)]

end Libio
