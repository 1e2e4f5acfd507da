import Libio.Http.Folding
import Libio.Http.Message

/-! # Where a request ends

How much of its input the parser takes for one request without `Transfer-Encoding`. The method
decides first: only a POST has a body, any other request ends with its header and leaves all that
follows in the input, whatever its header says. A POST ends where its length says. A POST that gives
no length ends with the connection, and all that follows is its body. -/

namespace Libio

open ByteQueue

/-- The bytes of a request up to the end of its header. -/
def requestHead (type : RequestType) (target : Str) (minor : ℕ) (fs : List Field) : Str :=
  Request.requestLine type target minor ++ (crlf ++ (fs.flatMap Field.text ++ crlf))

/-- The map the parser makes of a header block. -/
def blockHeaders (fs : List Field) : Headers := enterAll Field.key Field.stored ∅ fs

/-- A look at the map for a name that no field has. -/
theorem getElem?_blockHeaders_of_ne {fs : List Field} {key : Str} (hkey : ∀ f ∈ fs, f.key ≠ key) :
    (blockHeaders fs)[key]? = none := by
  rw [blockHeaders, getElem?_enterAll_of_ne hkey]
  rfl

/-- A request on the wire, up to the end of its header: the first line is well formed, the fields
can be read, and none of them is a transfer encoding. -/
structure PlainRequest (type : RequestType) (target : Str) (minor : ℕ) (fs : List Field) : Prop where
  start : (StartLine.request type target minor).WellFormed
  fields : ∀ f ∈ fs, f.Readable
  encoding : ∀ f ∈ fs, f.key ≠ str "Transfer-Encoding"

namespace PlainRequest

variable {type : RequestType} {target : Str} {minor : ℕ} {fs : List Field}
  (h : PlainRequest type target minor fs)
include h

/-- No transfer encoding is found. -/
theorem getD_encoding : (blockHeaders fs)[str "Transfer-Encoding"]?.getD [] ≠ str "chunked" := by
  rw [getElem?_blockHeaders_of_ne h.encoding]
  decide +kernel

/-- The parser at the end of the header: the object knows whether there is a body and has none
yet. -/
theorem parse_head : ∃ u : Request, u.status = .readingHeaders ∧ u.headers = blockHeaders fs ∧
    u.buf = [] ∧ u.chunked = false ∧ u.bodyless = .ok (type ≠ .post : Bool) ∧
    ∀ rest, Request.parse { kind := .request } (requestHead type target minor fs ++ rest) =
      u.finishHeaders Request.parseBody rest := by
  obtain ⟨r, hline, hr⟩ := Message.parseLine_start
    (m := { start := .request type target minor }) h.start
  refine ⟨{ r with status := .readingHeaders, headers := blockHeaders fs }, rfl, rfl, hr.buf,
    hr.chunked, hr.bodyless, fun rest => ?_⟩
  have hhead : requestHead type target minor fs ++ rest =
      Request.requestLine type target minor ++ (crlf ++ (fs.flatMap Field.text ++ (crlf ++ rest))) := by
    simp [requestHead]
  have hfirst := Request.parseFirstline_line (r := { kind := .request })
    (StartLine.text_ne_nil (.request type target minor)) h.start.plain hline
    (fs.flatMap Field.text ++ (crlf ++ rest))
  calc Request.parse { kind := .request } (requestHead type target minor fs ++ rest)
      = Request.parseHeaders { r with status := .readingHeaders }
          (fs.flatMap Field.text ++ (crlf ++ rest)) := by
        rw [hhead]
        exact hfirst
    _ = Request.finishHeaders Request.parseBody
          { r with status := .readingHeaders, headers := blockHeaders fs } rest := by
        rw [Request.parseHeaders, Request.parseHeadersWith, readHeaders_block h.fields, hr.headers]
        rfl

/-- A request that is no POST is complete with its header. -/
theorem parse_bodyless (htype : type ≠ .post) (rest : Str) :
    ∃ u, Request.parse { kind := .request } (requestHead type target minor fs ++ rest) =
      .ok (.allread, u, rest) ∧ u.buf = [] := by
  obtain ⟨u, -, -, hbuf, -, hbodyless, hparse⟩ := h.parse_head
  rw [decide_eq_true htype] at hbodyless
  refine ⟨u, ?_, hbuf⟩
  rw [hparse]
  exact Request.finishHeaders_bodyless hbodyless rest

end PlainRequest

section Post

variable {target : Str} {minor : ℕ} {fs : List Field} (h : PlainRequest .post target minor fs)
include h

/-- The parser at the body of a POST. -/
theorem PlainRequest.parse_body : ∃ r : Request, r.buf = [] ∧ r.chunked = false ∧
    r.headers = blockHeaders fs ∧ ∀ rest, Request.parse { kind := .request }
      (requestHead .post target minor fs ++ rest) = r.parseBody rest := by
  obtain ⟨u, hstatus, hheaders, hbuf, hchunked, hbodyless, hparse⟩ := h.parse_head
  refine ⟨{ u with status := .readingBody }, hbuf, hchunked, hheaders, fun rest => ?_⟩
  rw [hparse]
  exact Request.finishHeaders_body (by simpa using hbodyless) hstatus rest

/-- A POST with a length is complete when the bytes of its body are there, and takes no others. -/
theorem PlainRequest.parse_length {v : Str} {n : ℕ}
    (hv : (blockHeaders fs)[str "Content-Length"]? = some v) (hn : Denotes 10 v n)
    (hmax : (n : ℤ) ≤ longMax) {payload : Str} (hpayload : payload.length = n) (rest : Str) :
    ∃ u, Request.parse { kind := .request }
        (requestHead .post target minor fs ++ (payload ++ rest)) =
      .ok (.allread, u, rest) ∧ u.buf = payload := by
  obtain ⟨r, hbuf, hchunked, hheaders, hparse⟩ := h.parse_body
  have hte : r.headers[str "Transfer-Encoding"]?.getD [] ≠ str "chunked" := by
    rw [hheaders]
    exact h.getD_encoding
  have hcl : r.headers[str "Content-Length"]?.getD [] = v := by
    rw [hheaders, hv]
    rfl
  have hstol := hn.stol hmax
  rw [hparse, Request.parseBody_length hte hchunked hcl (Request.ne_nil_of_stol hstol) hstol,
    if_pos (by simp [hpayload])]
  subst hpayload
  rw [List.take_left, List.drop_left, hbuf, List.nil_append]
  exact ⟨_, rfl, rfl⟩

/-- A POST without a length waits for the end of the connection, and takes all that follows. -/
theorem PlainRequest.parse_unframed
    (hcl : (blockHeaders fs)[str "Content-Length"]?.getD [] = []) (rest : Str) :
    ∃ u, Request.parse { kind := .request } (requestHead .post target minor fs ++ rest) =
      .ok (.needmore, u, []) ∧ u.buf = rest := by
  obtain ⟨r, hbuf, hchunked, hheaders, hparse⟩ := h.parse_body
  rw [← hheaders] at hcl
  have hte : r.headers[str "Transfer-Encoding"]?.getD [] ≠ str "chunked" := by
    rw [hheaders]
    exact h.getD_encoding
  rw [hparse, Request.parseBody_unframed hte hchunked hcl, hbuf, List.nil_append]
  exact ⟨_, rfl, rfl⟩

end Post

/-- **Where a request ends**, by its method: any request but a POST at its header, whatever the
header says of a length; a POST with a length behind that many bytes; a POST without one nowhere. -/
theorem parse_request_end {type : RequestType} {target : Str} {minor : ℕ} {fs : List Field}
    (h : PlainRequest type target minor fs) :
    (type ≠ .post → ∀ rest, ∃ u,
      Request.parse { kind := .request } (requestHead type target minor fs ++ rest) =
        .ok (.allread, u, rest) ∧ u.buf = []) ∧
    (type = .post → ∀ v n, (blockHeaders fs)[str "Content-Length"]? = some v → Denotes 10 v n →
      ∀ payload rest, payload.length = n →
      (requestHead type target minor fs ++ (payload ++ rest)).length ≤ 2 ^ 30 → ∃ u,
      Request.parse { kind := .request }
        (requestHead type target minor fs ++ (payload ++ rest)) =
        .ok (.allread, u, rest) ∧ u.buf = payload) ∧
    (type = .post → (blockHeaders fs)[str "Content-Length"]?.getD [] = [] → ∀ rest, ∃ u,
      Request.parse { kind := .request } (requestHead type target minor fs ++ rest) =
        .ok (.needmore, u, []) ∧ u.buf = rest) := by
  refine ⟨h.parse_bodyless, ?_, ?_⟩
  · rintro rfl v n hv hn payload rest hpayload hsize
    have hmax : (n : ℤ) ≤ longMax := by
      -- the body is a part of what is in the buffer
      rw [List.length_append, List.length_append, hpayload] at hsize
      unfold longMax
      omega
    exact h.parse_length hv hn hmax hpayload rest
  · rintro rfl hcl rest
    exact h.parse_unframed hcl rest

/-- The length of a body as the only field of a header. -/
def lengthField (value : Str) : Field := { name := str "Content-Length", value := value }

/-- A request with a length is one of them. -/
theorem plainRequest_length (type : RequestType) :
    PlainRequest type (str "/test") 1 [lengthField (str " 5")] where
  start := ⟨.inr rfl, by decide, by decide, by decide⟩
  fields := by decide +kernel
  encoding := by decide

/-- A POST with a length, followed by a second request. -/
theorem parse_request_end_post :
    ∃ u, Request.parse { kind := .request } (str "POST /test HTTP/1.1\r\nContent-Length: 5\r\n\r\n" ++
      (str "hello" ++ str "GET / HTTP/1.1\r\n\r\n")) =
      .ok (.allread, u, str "GET / HTTP/1.1\r\n\r\n") ∧ u.buf = str "hello" := by
  have hget : (blockHeaders [lengthField (str " 5")])[str "Content-Length"]? = some (str "5") := by
    decide +kernel
  have hdenotes : Denotes 10 (str "5") 5 :=
    ⟨str "5", [], rfl, by decide, by decide +kernel, by decide, by simp [StopsDigits]⟩
  exact (parse_request_end (plainRequest_length .post)).2.1 rfl (str "5") 5 hget hdenotes _ _ rfl
    (by decide)

/-- Neither of these two requests is framed by its header alone: the body of a GET is left to be
parsed as the next request, and a request behind a POST without a length becomes its body. -/
theorem framing_by_method :
    (∃ u, Request.parse { kind := .request }
        (str "GET /test HTTP/1.1\r\nContent-Length: 5\r\n\r\n" ++ str "hello") =
      .ok (.allread, u, str "hello")) ∧
    ∃ u, Request.parse { kind := .request }
        (str "POST /test HTTP/1.1\r\n\r\n" ++ str "GET / HTTP/1.1\r\n\r\n") =
      .ok (.needmore, u, []) ∧ u.buf = str "GET / HTTP/1.1\r\n\r\n" := by
  constructor
  · obtain ⟨u, hparse, -⟩ := (plainRequest_length .get).parse_bodyless (by decide) (str "hello")
    exact ⟨u, hparse⟩
  · have hplain : PlainRequest .post (str "/test") 1 [] :=
      ⟨⟨.inr rfl, by decide, by decide, by decide⟩, by simp, by simp⟩
    exact hplain.parse_unframed (by decide +kernel) _

end Libio
