import Libio.Foundation.Loops
import Libio.Http.Parse

/-! # The loops of the parser

The loop over header lines and the loop over chunks are given by their rounds, without a bound. Both
end, with what `readHeaders` and `readChunks` compute (`headersRound_ends`, `chunksRound_ends`): a
line or a chunk is taken off the buffer in each round that goes on. -/

namespace Libio

open ByteQueue

/-! ## Header lines -/

/-- The variables of the loop of `parse_headers`. -/
structure HeaderScan where
  k : Str := []
  v : Str := []
  headers : Headers
  buf : Str

/-- One round of the loop of `parse_headers`. -/
def headersRound : Loop HeaderScan (HeadersStop × Headers × Str) := fun s =>
  if s.buf = [] then .done (.drained, s.headers, s.buf)
  else
    match popLine s.buf with
    | ([], buf) => .done (.blank, s.headers, buf)
    | (c :: line, buf) =>
        if c = 32 ∨ c = 9 then
          if s.k = [] then .done (.bad, s.headers, buf)
          else
            .next { s with
              headers := s.headers.insert s.k (s.v ++ ltrim (c :: line) [32, 9]), buf := buf }
        else
          match find (c :: line) 58 0 with
          | none => .done (.bad, s.headers, buf)
          | some pos =>
              let k := trim (substr (c :: line) 0 pos)
              let v := trim ((c :: line).drop (pos + 1))
              .next { k := k, v := v, headers := s.headers.insert k v, buf := buf }

/-- A header line is taken off the buffer in every round that goes on. -/
theorem headersRound_next {s t : HeaderScan} (h : headersRound s = .next t) :
    t.buf.length < s.buf.length := by
  unfold headersRound at h
  split at h
  · cases h
  · split at h
    · cases h
    · next c line buf hpop =>
        have hlt := length_popLine_lt (q := s.buf) (by simp [hpop])
        rw [hpop] at hlt
        split at h
        · split at h
          · cases h
          · obtain rfl := Round.next.inj h
            exact hlt
        · split at h
          · cases h
          · obtain rfl := Round.next.inj h
            exact hlt

/-- The bounded loop makes the same rounds. -/
theorem readHeadersLoop_succ (fuel : ℕ) (s : HeaderScan) :
    readHeadersLoop (fuel + 1) s.k s.v s.headers s.buf =
      (headersRound s).result fun t => readHeadersLoop fuel t.k t.v t.headers t.buf := by
  rw [readHeadersLoop, headersRound]
  by_cases hbuf : s.buf = []
  · rw [if_pos hbuf, if_pos hbuf]
    rfl
  · rw [if_neg hbuf, if_neg hbuf]
    obtain ⟨line, rest⟩ := popLine s.buf
    cases line with
    | nil => rfl
    | cons c line =>
        by_cases hc : c = 32 ∨ c = 9
        · simp only [if_pos hc]
          split <;> rfl
        · simp only [if_neg hc]
          cases find (c :: line) 58 0 <;> rfl

/-- **The header loop ends**, with what `readHeaders` computes. -/
theorem headersRound_ends (s : HeaderScan) :
    ∃ n, headersRound.Ends s n (readHeaders s.k s.v s.headers s.buf) ∧ n ≤ s.buf.length := by
  rw [← readHeadersLoop_eq (Nat.le_succ s.buf.length)]
  exact Loop.ends_bounded (g := fun fuel s => readHeadersLoop fuel s.k s.v s.headers s.buf)
    (μ := fun s => s.buf.length) readHeadersLoop_succ (fun _ _ => headersRound_next) s

/-! ## Chunks -/

/-- One round of the loop of `parse_body` for a chunked body. -/
def chunksRound : Loop (Request × Str) (Except Fault Parsed) := fun (r, buf) =>
  if buf = [] then .done (.ok (.needmore, r, buf))
  else if r.ntoread < 0 then
    let (line, buf) := popLine buf
    match stol 16 line with
    | .error e => .done (.error e)
    | .ok n =>
        let r := { r with ntoread := n }
        if line = [] ∨ n < 0 then .done (.ok (.corrupted, r, buf))
        else if n = 0 then .done (Request.parseTrailer { r with status := .readingTrailer } buf)
        else .next (r, buf)
  else if buf.length < r.ntoread then .done (.ok (.needmore, r, buf))
  else
    let (data, buf) := move r.buf buf (r.ntoread + 2)
    .next ({ r with buf := data, ntoread := -1 }, buf)

/-- A size line or a chunk is taken off the buffer in every round that goes on. -/
theorem chunksRound_next {s t : Request × Str} (h : chunksRound s = .next t) :
    t.2.length < s.2.length := by
  obtain ⟨r, buf⟩ := s
  simp only [chunksRound] at h
  by_cases hbuf : buf = []
  · rw [if_pos hbuf] at h
    cases h
  · rw [if_neg hbuf] at h
    split at h
    · cases hn : stol 16 (popLine buf).1 with
      | error e =>
          rw [hn] at h
          cases h
      | ok n =>
          rw [hn] at h
          simp only at h
          split at h
          · cases h
          · split at h
            · cases h
            · obtain rfl := Round.next.inj h
              exact length_popLine_lt (Request.ne_nil_of_stol hn)
    · split at h
      · cases h
      · obtain rfl := Round.next.inj h
        have hlt : (move r.buf buf (r.ntoread + 2)).2.length < buf.length :=
          Request.length_move_lt hbuf (by omega)
        exact hlt

/-- The bounded loop makes the same rounds. -/
theorem readChunksLoop_succ (fuel : ℕ) (s : Request × Str) :
    Request.readChunksLoop (fuel + 1) s.1 s.2 =
      (chunksRound s).result fun t => Request.readChunksLoop fuel t.1 t.2 := by
  obtain ⟨r, buf⟩ := s
  simp only [Request.readChunksLoop, chunksRound]
  by_cases hbuf : buf = []
  · simp only [if_pos hbuf]
    rfl
  · simp only [if_neg hbuf]
    by_cases hneg : r.ntoread < 0
    · simp only [if_pos hneg]
      cases stol 16 (popLine buf).1 with
      | error e => rfl
      | ok n =>
          simp only [bind, Except.bind]
          split
          · rfl
          · split <;> rfl
    · simp only [if_neg hneg]
      split <;> rfl

/-- **The chunk loop ends**, with what `readChunks` computes. -/
theorem chunksRound_ends (r : Request) (buf : Str) :
    ∃ n, chunksRound.Ends (r, buf) n (r.readChunks buf) ∧ n ≤ buf.length := by
  rw [← Request.readChunksLoop_eq (Nat.le_succ buf.length)]
  exact Loop.ends_bounded (g := fun fuel s => Request.readChunksLoop fuel s.1 s.2)
    (μ := fun s => s.2.length) readChunksLoop_succ (fun _ _ => chunksRound_next) (r, buf)

end Libio
