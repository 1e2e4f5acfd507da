import Libio.Core.BufferRoom
import Libio.Http.Numeric
import Libio.Http.ParserLoops

/-! # Room for the body

The parser moves the body of a message into a buffer of its own, and a push onto it does not return
once the body would pass `2^30` bytes. `ReadsBody` says where a call of `parse` gets to the end of
`parse_body`, which makes the pushes, `parseReturns_iff` where all of them return. They do when the
body that comes out is within the bound (`parseReturns_of_result`). -/

namespace Libio

open ByteQueue

/-! ## Pushes onto the body -/

/-- What a round of the chunk loop pushes onto the body. -/
def chunkPush (s : Request × Str) : Option Str :=
  if s.2 = [] ∨ s.1.ntoread < 0 ∨ (s.2.length : ℤ) < s.1.ntoread then none
  else some (s.2.take (clamp s.2 (s.1.ntoread + 2)))

/-- A round of the chunk loop appends what it pushes, and takes it off the input. -/
theorem chunksRound_push {s t : Request × Str} (h : chunksRound s = .next t) :
    t.1.buf = s.1.buf ++ (chunkPush s).getD [] ∧
      ((chunkPush s).getD []).length + t.2.length ≤ s.2.length := by
  obtain ⟨r, buf⟩ := s
  simp only [chunksRound] at h
  by_cases hbuf : buf = []
  · rw [if_pos hbuf] at h
    cases h
  · rw [if_neg hbuf] at h
    by_cases hneg : r.ntoread < 0
    · rw [if_pos hneg] at h
      have hnone : chunkPush (r, buf) = none := if_pos (.inr (.inl hneg))
      cases hn : stol 16 (popLine buf).1 with
      | error e =>
          rw [hn] at h
          cases h
      | ok n =>
          rw [hn] at h
          simp only at h
          split at h
          · cases h
          · split at h
            · cases h
            · obtain rfl := Round.next.inj h
              simpa [hnone] using (popLine_suffix buf).length_le
    · rw [if_neg hneg] at h
      split at h
      · cases h
      · next hlen =>
          obtain rfl := Round.next.inj h
          have hsome : chunkPush (r, buf) = some (buf.take (clamp buf (r.ntoread + 2))) :=
            if_neg (by simp only [hbuf, hneg, hlen, or_self, not_false_eq_true])
          simp only [hsome, move, Option.getD_some, List.length_take, List.length_drop, true_and]
          omega

/-- The last round of the chunk loop pushes nothing. -/
theorem chunkPush_done {s : Request × Str} {o : Except Fault Parsed} (h : chunksRound s = .done o) :
    (chunkPush s).getD [] = [] := by
  obtain ⟨r, buf⟩ := s
  simp only [chunksRound] at h
  split at h
  · next hbuf => rw [chunkPush, if_pos (.inl hbuf), Option.getD_none]
  · split at h
    · next hneg => rw [chunkPush, if_pos (.inr (.inl hneg)), Option.getD_none]
    · split at h
      · next hlen => rw [chunkPush, if_pos (.inr (.inr hlen)), Option.getD_none]
      · cases h

namespace Request

variable {r r' : Request} {buf buf' : Str}

/-- What the end of `parse_body` pushes onto a body that is not chunked. -/
def bodyPush (r : Request) (buf : Str) : Option Str :=
  if r.ntoread < 0 then some (buf.take (clamp buf (-1)))
  else if buf.length ≥ r.ntoread then some (buf.take (clamp buf r.ntoread))
  else none

/-- The pushes of the end of `parse_body` return: those of the chunk loop, so that it ends, or the
one of a body that is not chunked. -/
def ReadReturns (r : Request) (buf : Str) : Prop :=
  if r.chunked then
    ∃ n x, chunksRound.EndsWithin (fun s => ∀ data ∈ chunkPush s, Takes s.1.buf data) (r, buf) n x
  else ∀ data ∈ r.bodyPush buf, Takes r.buf data

/-- The body has room for what the end of `parse_body` pushes. -/
def ReadRoom (r : Request) (buf : Str) : Prop :=
  if r.chunked then
    ∀ m s, chunksRound.Passes (r, buf) m s →
      ∀ data ∈ chunkPush s, s.1.buf.length + data.length ≤ 2 ^ 30
  else ∀ data ∈ r.bodyPush buf, r.buf.length + data.length ≤ 2 ^ 30

/-- A call of `parse` on the input `buf` gets to the end of `parse_body`, in the state `r'` and with
the input `buf'`. -/
inductive ReadsBody : Request → Str → Request → Str → Prop
  | chunked {r : Request} {buf : Str} (hst : r.status = .readingBody)
      (hte : (r.headers.subscript (str "Transfer-Encoding")).1 = str "chunked") :
      ReadsBody r buf { r with
        headers := (r.headers.subscript (str "Transfer-Encoding")).2
        chunked := true, ntoread := -1 } buf
  | length {r r' : Request} {buf : Str} {n : ℤ} (hst : r.status = .readingBody)
      (hte : (r.headers.subscript (str "Transfer-Encoding")).1 ≠ str "chunked")
      (hlen : getBodyLength { r with
        headers := (r.headers.subscript (str "Transfer-Encoding")).2 } = .ok (n, r'))
      (hn : n ≠ -1) : ReadsBody r buf r' buf
  | header {r r' : Request} {buf buf' rest : Str} {headers : Headers}
      (hst : r.status = .readingHeaders)
      (hread : readHeaders [] [] r.headers buf = (.blank, headers, rest))
      (hb : r.bodyless = .ok false)
      (h : ReadsBody { r with headers := headers, status := .readingBody } rest r' buf') :
      ReadsBody r buf r' buf'
  | firstline {r r₁ r' : Request} {buf buf' line rest : Str} {c : UInt8} {n : ℤ}
      (hst : r.status = .readingFirstline) (hpop : popLine buf = (c :: line, rest))
      (hline : r.parseLine (c :: line) = .ok (n, r₁)) (hn : n ≠ -1)
      (h : ReadsBody { r₁ with status := .readingHeaders } rest r' buf') : ReadsBody r buf r' buf'

/-- The pushes of a call of `parse` return. -/
def ParseReturns (r : Request) (buf : Str) : Prop :=
  ∀ r' buf', ReadsBody r buf r' buf' → r'.ReadReturns buf'

/-- The body has room for the pushes of a call of `parse`. -/
def ParseRoom (r : Request) (buf : Str) : Prop :=
  ∀ r' buf', ReadsBody r buf r' buf' → r'.ReadRoom buf'

/-- **Where a call of `parse` gets to**, its outcome is made. -/
theorem ReadsBody.parse_eq (h : ReadsBody r buf r' buf') : r.parse buf = r'.readBody buf' := by
  induction h with
  | @chunked r buf hst hte =>
      have hparse : r.parse buf = r.parseBody buf := by rw [parse, hst]
      rw [hparse, parseBody]
      simp only [if_pos hte]
  | @length r r' buf n hst hte hlen hn =>
      have hparse : r.parse buf = r.parseBody buf := by rw [parse, hst]
      rw [hparse, parseBody]
      simp only [if_neg hte, hlen, bind, Except.bind, if_neg hn]
  | @header r r' buf buf' rest headers hst hread hb _ ih =>
      have hparse : r.parse buf = r.parseHeaders buf := by rw [parse, hst]
      rw [hparse, parseHeaders, parseHeadersWith, hread, ← ih]
      exact finishHeaders_body (r := { r with headers := headers }) hb hst rest
  | @firstline r r₁ r' buf buf' line rest c n hst hpop hline hn _ ih =>
      have hparse : r.parse buf = r.parseFirstline buf := by rw [parse, hst]
      have hbuf : buf ≠ [] := by
        rintro rfl
        cases hpop
      rw [hparse, parseFirstline, if_neg hbuf, hpop, ← ih]
      simp only [hline, bind, Except.bind, if_neg hn]
      rfl

/-- **Where the pushes return**: there is room for them. -/
theorem readReturns_iff : r.ReadReturns buf ↔ r.ReadRoom buf := by
  unfold ReadReturns ReadRoom
  split
  · obtain ⟨n, hends, -⟩ := chunksRound_ends r buf
    have hiff := Loop.endsWithin_iff (P := fun s => ∀ data ∈ chunkPush s, Takes s.1.buf data) hends
    simp only [takes_iff] at hiff ⊢
    refine ⟨?_, fun hroom => ⟨n, _, hiff.mpr hroom⟩⟩
    rintro ⟨m, x, hx⟩
    exact (Loop.endsWithin_iff hx.ends).mp hx
  · simp only [takes_iff]

/-- **Where a call of `parse` returns**: the body has room for what it pushes. -/
theorem parseReturns_iff : r.ParseReturns buf ↔ r.ParseRoom buf :=
  forall₃_congr fun _ _ _ => readReturns_iff

/-- A full body without a framing has no room for one more byte. -/
theorem not_parseReturns_unframed (hst : r.status = .readingBody)
    (hte : (r.headers.subscript (str "Transfer-Encoding")).1 ≠ str "chunked")
    (hlen : ((r.headers.subscript (str "Transfer-Encoding")).2.subscript
      (str "Content-Length")).1 = []) (hchunked : r.chunked = false)
    (hfull : 2 ^ 30 ≤ r.buf.length) (c : UInt8) : ¬r.ParseReturns [c] := by
  intro hreturns
  have hlength := getBodyLength_none (r := { r with headers := (r.headers.subscript
    (str "Transfer-Encoding")).2 }) hlen
  have hreads : ReadsBody r [c] _ [c] := .length hst hte hlength (by decide)
  have hroom := readReturns_iff.mp (hreturns _ _ hreads)
  unfold ReadRoom at hroom
  rw [if_neg (by simp [withLength, hchunked])] at hroom
  have hneg : (-1 : ℤ) < 0 := by decide
  have hone : r.buf.length + [c].length ≤ 2 ^ 30 := hroom [c] (if_pos hneg)
  rw [List.length_singleton] at hone
  omega

/-! ## The body that comes out -/

/-- The trailer leaves the body as it is. -/
theorem parseTrailer_buf {p : Parsed} (h : r.parseTrailer buf = .ok p) : p.2.1.buf = r.buf := by
  rw [parseTrailer, parseHeadersWith] at h
  generalize readHeaders [] [] r.headers buf = res at h
  obtain ⟨stop, headers, rest⟩ := res
  cases stop with
  | drained | bad =>
      obtain rfl : _ = p := Except.ok.inj h
      rfl
  | blank =>
      obtain ⟨b, -, h⟩ := bind_eq_ok.mp h
      split at h
      · obtain rfl : _ = p := Except.ok.inj h
        rfl
      · split at h <;>
        · obtain rfl : _ = p := Except.ok.inj h
          rfl

/-- The last round of the chunk loop leaves the body as it is. -/
theorem chunksRound_done {s : Request × Str} {p : Parsed} (h : chunksRound s = .done (.ok p)) :
    p.2.1.buf = s.1.buf := by
  obtain ⟨r, buf⟩ := s
  simp only [chunksRound] at h
  split at h
  · obtain rfl : _ = p := Except.ok.inj (Round.done.inj h)
    rfl
  · split at h
    · cases hn : stol 16 (popLine buf).1 with
      | error e =>
          rw [hn] at h
          cases h
      | ok n =>
          rw [hn] at h
          simp only at h
          split at h
          · obtain rfl : _ = p := Except.ok.inj (Round.done.inj h)
            rfl
          · split at h
            · have hbuf := parseTrailer_buf (Round.done.inj h)
              exact hbuf
            · cases h
    · split at h
      · obtain rfl : _ = p := Except.ok.inj (Round.done.inj h)
        rfl
      · cases h

/-- The chunk loop only lengthens the body, so all it pushes is part of the body it ends with. -/
theorem chunksRound_body {s : Request × Str} {n : ℕ} {p : Parsed}
    (h : chunksRound.Ends s n (.ok p)) {m : ℕ} {t : Request × Str}
    (hpass : chunksRound.Passes s m t) :
    t.1.buf.length + ((chunkPush t).getD []).length ≤ p.2.1.buf.length := by
  -- how the loop ends from where it is
  have hends : ∃ k, chunksRound.Ends t k (.ok p) := by
    refine hpass.invariant (I := fun t => ∃ k, chunksRound.Ends t k (.ok p)) ?_ ⟨n, h⟩
    rintro t u ⟨k, hk⟩ hround
    exact hk.of_next hround
  obtain ⟨k, hk⟩ := hends
  clear h hpass
  induction k generalizing t with
  | zero =>
      rcases Loop.ends_iff.mp hk with ⟨-, hdone⟩ | ⟨l, u, hl, -, -⟩
      · rw [chunkPush_done hdone, chunksRound_done hdone]
        exact le_rfl
      · cases hl
  | succ k ih =>
      rcases Loop.ends_iff.mp hk with ⟨hk, -⟩ | ⟨l, u, hl, hnext, hu⟩
      · cases hk
      · obtain rfl := Nat.succ.inj hl
        have hle := ih hu
        rw [(chunksRound_push hnext).1, List.length_append] at hle
        omega

/-- **A body that comes out within `2^30` bytes** has had room for all that was pushed. -/
theorem readRoom_of_result {p : Parsed} (h : r.readBody buf = .ok p)
    (hfits : p.2.1.buf.length ≤ 2 ^ 30) : r.ReadRoom buf := by
  unfold ReadRoom
  unfold readBody at h
  by_cases hchunked : r.chunked
  · rw [if_pos hchunked] at h ⊢
    obtain ⟨n, hends, -⟩ := chunksRound_ends r buf
    rw [h] at hends
    intro m t hpass data hdata
    have hle := chunksRound_body hends hpass
    rw [Option.mem_def.mp hdata, Option.getD_some] at hle
    omega
  · rw [if_neg hchunked] at h ⊢
    intro data hdata
    unfold bodyPush at hdata
    split at h
    · next hneg =>
        rw [if_pos hneg] at hdata
        obtain rfl := Option.some.inj hdata
        obtain rfl : _ = p := Except.ok.inj h
        simpa [move] using hfits
    · next hneg =>
        rw [if_neg hneg] at hdata
        split at h
        · next hlen =>
            rw [if_pos hlen] at hdata
            obtain rfl := Option.some.inj hdata
            obtain rfl : _ = p := Except.ok.inj h
            simpa [move] using hfits
        · next hlen =>
            rw [if_neg hlen] at hdata
            cases hdata

/-- **A call of `parse`** whose body comes out within `2^30` bytes returns. -/
theorem parseReturns_of_result {p : Parsed} (h : r.parse buf = .ok p)
    (hfits : p.2.1.buf.length ≤ 2 ^ 30) : r.ParseReturns buf := by
  refine parseReturns_iff.mpr fun r' buf' hreads => ?_
  exact readRoom_of_result (hreads.parse_eq ▸ h) hfits

/-! ## Small bodies -/

/-- A request line leaves the body as it is. -/
theorem parseRequestLine_buf {line : Str} {n : ℤ} (h : r.parseRequestLine line = .ok (n, r')) :
    r'.buf = r.buf := by
  unfold parseRequestLine at h
  split at h
  · obtain ⟨-, rfl⟩ := Prod.mk.inj (Except.ok.inj h)
    rfl
  · split at h
    · obtain ⟨-, rfl⟩ := Prod.mk.inj (Except.ok.inj h)
      rfl
    · next type _ =>
        obtain ⟨path, -, h⟩ := bind_eq_ok.mp h
        obtain ⟨u, q, hset⟩ := setTarget_fields { r with type := some type } _
        rw [hset] at h
        split at h <;>
        · obtain ⟨-, rfl⟩ := Prod.mk.inj (Except.ok.inj h)
          rfl

/-- A status line leaves the body as it is. -/
theorem parseResponseLine_buf {line : Str} {n : ℤ} (h : r.parseResponseLine line = .ok (n, r')) :
    r'.buf = r.buf := by
  unfold parseResponseLine at h
  split at h
  · obtain ⟨-, rfl⟩ := Prod.mk.inj (Except.ok.inj h)
    rfl
  · split at h
    · obtain ⟨-, rfl⟩ := Prod.mk.inj (Except.ok.inj h)
      rfl
    · obtain ⟨code, -, h⟩ := bind_eq_ok.mp h
      obtain ⟨-, rfl⟩ := Prod.mk.inj (Except.ok.inj h)
      rfl

/-- A first line leaves the body as it is. -/
theorem parseLine_buf {line : Str} {n : ℤ} (h : r.parseLine line = .ok (n, r')) : r'.buf = r.buf := by
  unfold parseLine at h
  split at h
  · exact parseRequestLine_buf h
  · exact parseResponseLine_buf h

/-- The length leaves the body as it is. -/
theorem getBodyLength_buf {n : ℤ} (h : r.getBodyLength = .ok (n, r')) : r'.buf = r.buf := by
  by_cases hlen : (r.headers.subscript (str "Content-Length")).1 = []
  · rw [getBodyLength_none hlen] at h
    obtain ⟨-, rfl⟩ := Prod.mk.inj (Except.ok.inj h)
    rfl
  · rw [getBodyLength_some hlen] at h
    obtain ⟨m, -, h⟩ := bind_eq_ok.mp h
    obtain ⟨-, rfl⟩ := Prod.mk.inj (Except.ok.inj h)
    rfl

/-- The way to the end of `parse_body` pushes nothing, and takes bytes off the input. -/
theorem ReadsBody.keeps (h : ReadsBody r buf r' buf') :
    r'.buf = r.buf ∧ buf'.length ≤ buf.length := by
  induction h with
  | chunked => exact ⟨rfl, le_rfl⟩
  | @length r r' buf n hst hte hlen hn =>
      have hbuf := getBodyLength_buf hlen
      exact ⟨hbuf, le_rfl⟩
  | @header r r' buf buf' rest headers hst hread hb _ ih =>
      have hsuffix := (readHeaders_suffix [] [] r.headers buf).length_le
      rw [hread] at hsuffix
      exact ⟨ih.1, ih.2.trans hsuffix⟩
  | @firstline r r₁ r' buf buf' line rest c n hst hpop hline hn _ ih =>
      have hsuffix := (popLine_suffix buf).length_le
      rw [hpop] at hsuffix
      have hbuf : r₁.buf = r.buf := parseLine_buf hline
      exact ⟨ih.1.trans hbuf, ih.2.trans hsuffix⟩

/-- A body that has room for all the input has room for what the end of `parse_body` pushes. -/
theorem readRoom_of_fits (hfits : r.buf.length + buf.length ≤ 2 ^ 30) : r.ReadRoom buf := by
  unfold ReadRoom
  split
  · intro m s hpass data hdata
    -- what is pushed has been in the input
    have hs : s.1.buf.length + s.2.length ≤ 2 ^ 30 := by
      refine hpass.invariant (I := fun s => s.1.buf.length + s.2.length ≤ 2 ^ 30)
        (fun s t hs hround => ?_) hfits
      obtain ⟨hbuf, hlen⟩ := chunksRound_push hround
      rw [hbuf, List.length_append]
      omega
    have hle : data.length ≤ s.2.length := by
      unfold chunkPush at hdata
      split at hdata
      · cases hdata
      · obtain rfl := Option.some.inj hdata
        rw [List.length_take]
        exact min_le_right _ _
    omega
  · intro data hdata
    have hle : data.length ≤ buf.length := by
      unfold bodyPush at hdata
      split at hdata
      · obtain rfl := Option.some.inj hdata
        rw [List.length_take]
        exact min_le_right _ _
      · split at hdata
        · obtain rfl := Option.some.inj hdata
          rw [List.length_take]
          exact min_le_right _ _
        · cases hdata
    omega

/-- A body that has room for all the input has room for what a call pushes. -/
theorem parseRoom_of_fits (hfits : r.buf.length + buf.length ≤ 2 ^ 30) : r.ParseRoom buf := by
  intro r' buf' h
  obtain ⟨hbuf, hlen⟩ := h.keeps
  refine readRoom_of_fits ?_
  rw [hbuf]
  omega

end Request

end Libio
