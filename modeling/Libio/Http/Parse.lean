import Libio.Http.Request

/-! # The parser

`request::parse` of `http/request.cc`. A call returns a status with the request and the rest of the
input buffer, or ends in a `Fault`. Loops are bounded by the length of the input, and the equations
`readHeaders_eq` and `readChunks_eq` say that this bound is never what ends them. -/

namespace Libio

open ByteQueue

/-- `parse_status_t`. -/
inductive ParseStatus
  | allread
  | needmore
  | corrupted
  | canceld
  deriving DecidableEq, Repr

/-- What a call of the parser leaves: its status, the request and the input buffer. -/
abbrev Parsed := ParseStatus × Request × Str

/-! ## The first line -/

/-- Cut a line at its first two blanks. -/
def threeFields (line : Str) : Option (Str × Str × Str) :=
  match find line 32 0 with
  | none => none
  | some k1 =>
      match find line 32 (k1 + 1) with
      | none => none
      | some k2 =>
          some (substr line 0 k1, substr line (k1 + 1) (k2 - k1 - 1), line.drop (k2 + 1))

/-- The version a protocol text stands for. -/
def protocolVersion (protocol : Str) : Option (ℤ × ℤ) :=
  if protocol = str "HTTP/1.0" then some (1, 0)
  else if protocol = str "HTTP/1.1" then some (1, 1)
  else none

/-- The request type a method stands for. -/
def requestType (method : Str) : Option RequestType :=
  if method = str "GET" then some .get
  else if method = str "POST" then some .post
  else if method = str "HEAD" then some .head
  else none

namespace Request

/-- Enter the target of a request line: the path in front of the first `?` and the query behind it.
A target without `?` leaves the query as it was. -/
def setTarget (r : Request) (uri : Str) : Request :=
  match find uri 63 0 with
  | some k3 => { r with uri := substr uri 0 k3, query := uri.drop (k3 + 1) }
  | none => { r with uri := uri }

/-- The end of `parse_request_line`: the path is decoded and the protocol read. -/
def decodeRequestLine (r : Request) (protocol : Str) : Except Fault (ℤ × Request) := do
  let uri ← stringFromUtf8 r.uri
  let r := { r with uri := uri }
  match protocolVersion protocol with
  | none => .ok (-1, r)
  | some (major, minor) => .ok (0, { r with major := major, minor := minor })

/-- `parse_request_line(line)`. -/
def parseRequestLine (r : Request) (line : Str) : Except Fault (ℤ × Request) :=
  match threeFields line with
  | none => .ok (-1, r)
  | some (method, uri, protocol) =>
      match requestType method with
      | none => .ok (-1, r)
      | some type => ({ r with type := some type }.setTarget uri).decodeRequestLine protocol

/-- `parse_response_line(line)`. -/
def parseResponseLine (r : Request) (line : Str) : Except Fault (ℤ × Request) :=
  match threeFields line with
  | none => .ok (-1, r)
  | some (protocol, code, responseLine) =>
      match protocolVersion protocol with
      | none => .ok (-1, r)
      | some (major, minor) => do
          let r := { r with major := major, minor := minor }
          -- the version is entered already when `stoi` throws
          let n ← stoi code
          .ok (0, { r with responseCode := some (httpCode n), responseLine := responseLine })

/-- `get_body_length()`. -/
def getBodyLength (r : Request) : Except Fault (ℤ × Request) := do
  let (contentLength, headers) := r.headers.subscript (str "Content-Length")
  let (_, headers) := headers.subscript (str "Connection")
  let r := { r with headers := headers }
  if contentLength = [] then .ok (0, { r with ntoread := -1 })
  else
    let n ← stol 10 contentLength
    if n < 0 then .ok (-1, { r with ntoread := n }) else .ok (0, { r with ntoread := n })

end Request

/-! ## Header fields -/

/-- How the loop over the header lines ends: at an empty line, at the end of the input, or at a line
that is no header. -/
inductive HeadersStop
  | blank
  | drained
  | bad
  deriving DecidableEq, Repr

/-- At most `fuel` rounds of the loop of `parse_headers`. -/
def readHeadersLoop : ℕ → Str → Str → Headers → Str → HeadersStop × Headers × Str
  | 0, _, _, headers, buf => (.drained, headers, buf)
  | fuel + 1, k, v, headers, buf =>
      if buf = [] then (.drained, headers, buf)
      else
        match popLine buf with
        -- the empty line ends the header
        | ([], buf) => (.blank, headers, buf)
        | (c :: line, buf) =>
            -- a continuation: `v` itself stays, so a second one replaces the first
            if c = 32 ∨ c = 9 then
              if k = [] then (.bad, headers, buf)
              else readHeadersLoop fuel k v (headers.insert k (v ++ ltrim (c :: line) [32, 9])) buf
            else
              match find (c :: line) 58 0 with
              | none => (.bad, headers, buf)
              | some pos =>
                  let k := trim (substr (c :: line) 0 pos)
                  let v := trim ((c :: line).drop (pos + 1))
                  readHeadersLoop fuel k v (headers.insert k v) buf

/-- The loop of `parse_headers`. The first two texts are its locals `k` and `v`. -/
def readHeaders (k v : Str) (headers : Headers) (buf : Str) : HeadersStop × Headers × Str :=
  readHeadersLoop buf.length k v headers buf

namespace Request

/-- Whether a message ends with its header: a request other than POST, and a response with a code
that allows no body. -/
def bodyless (r : Request) : Except Fault Bool :=
  match r.kind with
  | .request =>
      match r.type with
      | none => .error .undefined
      | some type => .ok (type ≠ .post)
  | .response =>
      match r.responseCode with
      | none => .error .undefined
      | some code => .ok (code = httpNocontent ∨ code = httpNotmodified ∨ (100 ≤ code ∧ code < 200))

/-- What `parse_headers` does at the empty line, `body` standing for `parse_body`. -/
def finishHeaders (body : Request → Str → Except Fault Parsed) (r : Request) (buf : Str) :
    Except Fault Parsed := do
  if ← r.bodyless then .ok (.allread, r, buf)
  else
    match r.status with
    | .readingHeaders => body { r with status := .readingBody } buf
    | .readingTrailer => .ok (.allread, r, buf)
    | _ => .ok (.corrupted, r, buf)

/-- `parse_headers(buf)`, `body` standing for `parse_body`. -/
def parseHeadersWith (body : Request → Str → Except Fault Parsed) (r : Request) (buf : Str) :
    Except Fault Parsed :=
  let (stop, headers, buf) := readHeaders [] [] r.headers buf
  let r := { r with headers := headers }
  match stop with
  | .drained => .ok (.needmore, r, buf)
  | .bad => .ok (.corrupted, r, buf)
  | .blank => r.finishHeaders body buf

/-- `parse_trailer(buf)`. It runs `parse_headers` in the state in which the end of the header does
not lead on to a body, see `parseTrailer_eq`. -/
def parseTrailer (r : Request) (buf : Str) : Except Fault Parsed :=
  r.parseHeadersWith (fun r buf => .ok (.corrupted, r, buf)) buf

/-! ## The body -/

/-- At most `fuel` rounds of the loop of `parse_body`. -/
def readChunksLoop : ℕ → Request → Str → Except Fault Parsed
  | 0, r, buf => .ok (.needmore, r, buf)
  | fuel + 1, r, buf =>
      if buf = [] then .ok (.needmore, r, buf)
      else if r.ntoread < 0 then do
        let (line, buf) := popLine buf
        -- the size is converted before the line is known not to be empty
        let n ← stol 16 line
        let r := { r with ntoread := n }
        if line = [] ∨ n < 0 then .ok (.corrupted, r, buf)
        else if n = 0 then parseTrailer { r with status := .readingTrailer } buf
        else readChunksLoop fuel r buf
      -- the two bytes of the line end are moved with the chunk but not waited for
      else if buf.length < r.ntoread then .ok (.needmore, r, buf)
      else
        let (data, buf) := move r.buf buf (r.ntoread + 2)
        readChunksLoop fuel { r with buf := data, ntoread := -1 } buf

/-- The loop of `parse_body` for a chunked body. -/
def readChunks (r : Request) (buf : Str) : Except Fault Parsed := readChunksLoop buf.length r buf

/-- The part of `parse_body` behind the choice of the framing. -/
def readBody (r : Request) (buf : Str) : Except Fault Parsed :=
  if r.chunked then r.readChunks buf
  -- without a length the body ends with the connection
  else if r.ntoread < 0 then
    let (data, buf) := move r.buf buf (-1)
    .ok (.needmore, { r with buf := data }, buf)
  else if buf.length ≥ r.ntoread then
    let (data, buf) := move r.buf buf r.ntoread
    .ok (.allread, { r with buf := data }, buf)
  else .ok (.needmore, r, buf)

/-- `parse_body(buf)`. -/
def parseBody (r : Request) (buf : Str) : Except Fault Parsed :=
  -- `operator[]` enters every key that is looked up
  let (encoding, headers) := r.headers.subscript (str "Transfer-Encoding")
  let r := { r with headers := headers }
  if encoding = str "chunked" then
    readBody { r with chunked := true, ntoread := -1 } buf
  else do
    let (res, r) ← r.getBodyLength
    if res = -1 then .ok (.corrupted, r, buf) else r.readBody buf

/-- `parse_headers(buf)`. -/
def parseHeaders (r : Request) (buf : Str) : Except Fault Parsed := r.parseHeadersWith parseBody buf

/-! ## The states -/

/-- The choice of the first-line parser. -/
def parseLine (r : Request) (line : Str) : Except Fault (ℤ × Request) :=
  match r.kind with
  | .request => r.parseRequestLine line
  | .response => r.parseResponseLine line

/-- `parse_firstline(buf)`. -/
def parseFirstline (r : Request) (buf : Str) : Except Fault Parsed :=
  if buf = [] then .ok (.needmore, r, buf)
  else
    match popLine buf with
    -- an empty line in front of the first line is taken off, one a call
    | ([], buf) => .ok (.needmore, r, buf)
    | (c :: line, buf) => do
        let (res, r) ← r.parseLine (c :: line)
        if res = -1 then .ok (.corrupted, r, buf)
        else parseHeaders { r with status := .readingHeaders } buf

/-- `parse(buf)`. -/
def parse (r : Request) (buf : Str) : Except Fault Parsed :=
  match r.status with
  | .readingFirstline => r.parseFirstline buf
  | .readingHeaders => r.parseHeaders buf
  | .readingBody => r.parseBody buf
  | .readingTrailer => r.parseTrailer buf

/-- A trailer is parsed by `parse_headers`, as the source has it. -/
theorem parseTrailer_eq {r : Request} (h : r.status = .readingTrailer) (buf : Str) :
    r.parseTrailer buf = r.parseHeaders buf := by
  unfold parseTrailer parseHeaders parseHeadersWith finishHeaders
  simp only [h]

end Request

/-! ## The loops without their bound -/

/-- The bound of the header loop is never what ends it. -/
theorem readHeadersLoop_eq {fuel : ℕ} {k v : Str} {h : Headers} {buf : Str}
    (hf : buf.length ≤ fuel) : readHeadersLoop fuel k v h buf = readHeaders k v h buf := by
  suffices hs : ∀ {f g : ℕ} {k v : Str} {h : Headers} {buf : Str}, buf.length ≤ f → buf.length ≤ g →
      readHeadersLoop f k v h buf = readHeadersLoop g k v h buf from hs hf le_rfl
  intro f
  induction f with
  | zero =>
      intro g k v h buf hf hg
      obtain rfl : buf = [] := List.length_eq_zero_iff.mp (by omega)
      cases g <;> simp [readHeadersLoop]
  | succ f ih =>
      intro g k v h buf hf hg
      by_cases hbuf : buf = []
      · subst hbuf
        cases g <;> simp [readHeadersLoop]
      · cases g with
        | zero => exact absurd (List.length_eq_zero_iff.mp (by omega)) hbuf
        | succ g =>
            simp only [readHeadersLoop, if_neg hbuf]
            split
            · rfl
            · next c line rest hpop =>
                -- the rest behind a line is shorter, so both bounds cover it
                have hlt := length_popLine_lt (q := buf) (by simp [hpop])
                rw [hpop] at hlt
                simp only at hlt
                have hg : rest.length ≤ g := by omega
                simp only [ih (by omega) hg]

/-- One round of the header loop. -/
theorem readHeaders_eq (k v : Str) (h : Headers) (buf : Str) :
    readHeaders k v h buf =
      if buf = [] then (.drained, h, buf)
      else
        match popLine buf with
        | ([], buf) => (.blank, h, buf)
        | (c :: line, buf) =>
            if c = 32 ∨ c = 9 then
              if k = [] then (.bad, h, buf)
              else readHeaders k v (h.insert k (v ++ ltrim (c :: line) [32, 9])) buf
            else
              match find (c :: line) 58 0 with
              | none => (.bad, h, buf)
              | some pos =>
                  let k := trim (substr (c :: line) 0 pos)
                  let v := trim ((c :: line).drop (pos + 1))
                  readHeaders k v (h.insert k v) buf := by
  rw [← readHeadersLoop_eq (Nat.le_succ buf.length), readHeadersLoop]
  by_cases hbuf : buf = []
  · simp only [if_pos hbuf]
  · simp only [if_neg hbuf]
    split
    · rfl
    · next c line rest hpop =>
        have hlt := length_popLine_lt (q := buf) (by simp [hpop])
        rw [hpop] at hlt
        simp only at hlt
        simp only [readHeadersLoop_eq (Nat.le_of_lt hlt)]

namespace Request

/-- A line that `stol` accepts is not empty. -/
theorem ne_nil_of_stol {b : ℕ} {line : Str} {n : ℤ} (h : stol b line = .ok n) : line ≠ [] := by
  rintro rfl
  simp [stol, convert, strtol, strtolSign, strtolSkip0x] at h

/-- Moving a chunk shortens the input. -/
theorem length_move_lt {dst src : Str} {n : ℤ} (hsrc : src ≠ []) (hn : 0 < n) :
    (move dst src n).2.length < src.length := by
  have hpos := List.length_pos_iff.mpr hsrc
  have : 0 < clamp src n := by unfold clamp; split <;> omega
  simp only [move, List.length_drop]
  omega

/-- The bound of the chunk loop is never what ends it. -/
theorem readChunksLoop_eq {fuel : ℕ} {r : Request} {buf : Str} (hf : buf.length ≤ fuel) :
    readChunksLoop fuel r buf = r.readChunks buf := by
  suffices hs : ∀ {f g : ℕ} {r : Request} {buf : Str}, buf.length ≤ f → buf.length ≤ g →
      readChunksLoop f r buf = readChunksLoop g r buf from hs hf le_rfl
  intro f
  induction f with
  | zero =>
      intro g r buf hf hg
      obtain rfl : buf = [] := List.length_eq_zero_iff.mp (by omega)
      cases g <;> simp [readChunksLoop]
  | succ f ih =>
      intro g r buf hf hg
      by_cases hbuf : buf = []
      · subst hbuf
        cases g <;> simp [readChunksLoop]
      · cases g with
        | zero => exact absurd (List.length_eq_zero_iff.mp (by omega)) hbuf
        | succ g =>
            simp only [readChunksLoop, if_neg hbuf]
            -- a size line or a chunk is taken off, so both bounds cover the rest
            by_cases hneg : r.ntoread < 0
            · simp only [if_pos hneg]
              cases hn : stol 16 (popLine buf).1 with
              | error e => rfl
              | ok n =>
                  have hlt := length_popLine_lt (ne_nil_of_stol hn)
                  have hg : (popLine buf).2.length ≤ g := by omega
                  simp only [bind, Except.bind, ih (by omega) hg]
            · simp only [if_neg hneg]
              have hlt : (move r.buf buf (r.ntoread + 2)).2.length < buf.length :=
                length_move_lt hbuf (by omega)
              rw [ih (g := g) (by omega) (by omega)]

/-- One round of the chunk loop. -/
theorem readChunks_eq (r : Request) (buf : Str) :
    r.readChunks buf =
      if buf = [] then .ok (.needmore, r, buf)
      else if r.ntoread < 0 then do
        let (line, buf) := popLine buf
        let n ← stol 16 line
        let r := { r with ntoread := n }
        if line = [] ∨ n < 0 then .ok (.corrupted, r, buf)
        else if n = 0 then parseTrailer { r with status := .readingTrailer } buf
        else readChunks r buf
      else if buf.length < r.ntoread then .ok (.needmore, r, buf)
      else
        let (data, buf) := move r.buf buf (r.ntoread + 2)
        readChunks { r with buf := data, ntoread := -1 } buf := by
  rw [← readChunksLoop_eq (Nat.le_succ buf.length), readChunksLoop]
  by_cases hbuf : buf = []
  · simp only [if_pos hbuf]
  · simp only [if_neg hbuf]
    by_cases hneg : r.ntoread < 0
    · simp only [if_pos hneg]
      cases hn : stol 16 (popLine buf).1 with
      | error e => rfl
      | ok n =>
          have hlt := length_popLine_lt (ne_nil_of_stol hn)
          simp only [bind, Except.bind, readChunksLoop_eq (Nat.le_of_lt hlt)]
    · simp only [if_neg hneg]
      have hlt : (move r.buf buf (r.ntoread + 2)).2.length < buf.length :=
        length_move_lt hbuf (by omega)
      rw [readChunksLoop_eq hlt.le]

end Request

end Libio
