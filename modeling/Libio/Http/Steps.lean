import Libio.Http.Field

/-! # What the parser does with the parts of a message

One equation for each part a message is made of: the first line, a header field, the empty line, the
body, a chunk, the last chunk. Each says that parsing the part and what follows is parsing what
follows from the next state, so the parse of a message is a chain of these equations. -/

namespace Libio

open ByteQueue

/-! ## The first line -/

/-- Two blanks cut a line in three. -/
theorem threeFields_append {a b : Str} (ha : (32 : UInt8) ∉ a) (hb : (32 : UInt8) ∉ b) (c : Str) :
    threeFields (a ++ 32 :: (b ++ 32 :: c)) = some (a, b, c) := by
  have h1 : find (a ++ 32 :: (b ++ 32 :: c)) 32 0 = some a.length := find_append_cons ha
  have h2 : find (a ++ 32 :: (b ++ 32 :: c)) 32 (a.length + 1) = some (b.length + (a.length + 1)) := by
    have := find_append_of_le (a := a ++ [32]) (b := b ++ 32 :: c) (c := 32) (n := a.length + 1)
      (by simp)
    rw [find_append_cons hb] at this
    simpa using this
  have hsub : b.length + (a.length + 1) - a.length - 1 = b.length := by omega
  have hdrop1 : (a ++ 32 :: (b ++ 32 :: c)).drop (a.length + 1) = b ++ 32 :: c := by
    rw [← List.drop_drop]
    simp
  have hdrop2 : (a ++ 32 :: (b ++ 32 :: c)).drop (b.length + (a.length + 1) + 1) = c := by
    rw [show b.length + (a.length + 1) + 1 = a.length + 1 + (b.length + 1) by omega,
      ← List.drop_drop, hdrop1, ← List.drop_drop]
    simp
  simp only [threeFields, h1, h2, substr, hsub, hdrop1, hdrop2, List.drop_zero, List.take_left]

/-- The text of a protocol is read back. -/
theorem protocolVersion_protocolText {minor : ℤ} (h : minor = 0 ∨ minor = 1) :
    protocolVersion (str "HTTP/" ++ stdToString 1 ++ str "." ++ stdToString minor) =
      some (1, minor) := by
  rcases h with rfl | rfl <;> decide +kernel

/-- The name of a method is read back. -/
theorem requestType_method (t : RequestType) : requestType (Request.method t) = some t := by
  cases t <;> decide

/-- The path of a request target: the part in front of the first `?`. -/
def pathOf (target : Str) : Str := target.takeWhile (· != 63)

/-- The query of a request target: the part behind the first `?`. -/
def queryOf (target : Str) : Str := (target.dropWhile (· != 63)).drop 1

namespace Request

variable {r : Request}

/-- Where a request has no query yet, its target is cut at the first `?`. -/
theorem setTarget_eq (hr : r.query = []) (target : Str) :
    r.setTarget target = { r with uri := pathOf target, query := queryOf target } := by
  by_cases h : (63 : UInt8) ∈ target
  · obtain ⟨a, b, rfl, ha⟩ := List.eq_append_cons_of_mem h
    have hall : ∀ c ∈ a, (c != 63) = true := fun c hc => by
      simpa using fun e : c = 63 => ha (e ▸ hc)
    have hdrop : (a ++ 63 :: b).drop (a.length + 1) = b := by
      rw [← List.drop_drop]
      simp
    rw [setTarget, find_append_cons ha]
    simp [substr, hdrop, pathOf, queryOf, List.takeWhile_append_of_pos hall,
      List.dropWhile_append_of_pos hall]
  · have hall : ∀ c ∈ target, (c != 63) = true := fun c hc => by
      simpa using fun e : c = 63 => h (e ▸ hc)
    have htake : target.takeWhile (· != 63) = target := List.takeWhile_eq_self_iff.mpr hall
    have hdrop : target.dropWhile (· != 63) = [] := List.dropWhile_eq_nil_iff.mpr hall
    rw [setTarget, find_eq_none h, pathOf, htake, queryOf, hdrop, List.drop_nil, ← hr]

/-- The path of a target does not depend on what the request was before. -/
theorem setTarget_uri (r : Request) (target : Str) : (r.setTarget target).uri = pathOf target := by
  have h : (setTarget { r with query := [] } target).uri = pathOf target := by
    rw [setTarget_eq rfl]
  rw [← h]
  unfold setTarget
  split <;> rfl

/-- A request line: the method, the target and the protocol. -/
def requestLine (type : RequestType) (target : Str) (minor : ℤ) : Str :=
  method type ++ 32 :: (target ++ 32 :: (str "HTTP/" ++ stdToString 1 ++ str "." ++ stdToString minor))

/-- The text of a protocol has no line end and no NUL. -/
theorem plain_protocol {minor : ℤ} (hminor : minor = 0 ∨ minor = 1) :
    Plain (str "HTTP/" ++ stdToString 1 ++ str "." ++ stdToString minor) := by
  rcases hminor with rfl | rfl <;> decide +kernel

/-- Nor has a request line. -/
theorem plain_requestLine (type : RequestType) {target : Str} (htarget : Plain target) {minor : ℤ}
    (hminor : minor = 0 ∨ minor = 1) : Plain (requestLine type target minor) := by
  have hmethod : Plain (method type) := by cases type <;> decide
  have hproto := plain_protocol hminor
  simp only [requestLine, plain_append, plain_cons] at hproto ⊢
  exact ⟨hmethod, by decide, htarget, by decide, hproto⟩

/-- A request line is read as what it says. -/
theorem parseRequestLine_eq (hr : r.query = []) (type : RequestType) {target uri : Str}
    (hblank : (32 : UInt8) ∉ target) (huri : stringFromUtf8 (pathOf target) = .ok uri) {minor : ℤ}
    (hminor : minor = 0 ∨ minor = 1) :
    r.parseRequestLine (requestLine type target minor) =
      .ok (0, { r with
        type := some type, uri := uri, query := queryOf target, major := 1, minor := minor }) := by
  have hmethod : (32 : UInt8) ∉ method type := by cases type <;> decide
  have htarget := setTarget_eq (r := { r with type := some type }) hr target
  unfold parseRequestLine requestLine
  rw [threeFields_append hmethod hblank]
  simp only [requestType_method, htarget, decodeRequestLine, huri,
    protocolVersion_protocolText hminor, bind, Except.bind]

/-- A status line: the protocol, the code and the reason. -/
def statusLine (minor : ℤ) (code reason : Str) : Str :=
  (str "HTTP/" ++ stdToString 1 ++ str "." ++ stdToString minor) ++ 32 :: (code ++ 32 :: reason)

/-- Nor has a status line. -/
theorem plain_statusLine {minor : ℤ} (hminor : minor = 0 ∨ minor = 1) {code reason : Str}
    (hcode : Plain code) (hreason : Plain reason) : Plain (statusLine minor code reason) := by
  have hproto := plain_protocol hminor
  simp only [statusLine, plain_append, plain_cons] at hproto ⊢
  exact ⟨hproto, by decide, hcode, by decide, hreason⟩

/-- A status line is read as what it says. -/
theorem parseResponseLine_eq {minor : ℤ} (hminor : minor = 0 ∨ minor = 1) {code : Str}
    (hblank : (32 : UInt8) ∉ code) {n : ℤ} (hcode : stoi code = .ok n) (reason : Str) :
    r.parseResponseLine (statusLine minor code reason) =
      .ok (0, { r with
        major := 1, minor := minor, responseCode := some (httpCode n),
        responseLine := reason }) := by
  have hproto : (32 : UInt8) ∉ str "HTTP/" ++ stdToString 1 ++ str "." ++ stdToString minor := by
    rcases hminor with rfl | rfl <;> decide +kernel
  unfold parseResponseLine statusLine
  rw [threeFields_append hproto hblank]
  simp only [protocolVersion_protocolText hminor, hcode, bind, Except.bind]

/-- A complete first line hands over to the header parser. -/
theorem parseFirstline_line {line : Str} (hne : line ≠ []) (hline : Plain line) {r' : Request}
    (hparse : r.parseLine line = .ok (0, r')) (rest : Str) :
    r.parseFirstline (line ++ (crlf ++ rest)) =
      parseHeaders { r' with status := .readingHeaders } rest := by
  obtain ⟨c, line, rfl⟩ := List.exists_cons_of_ne_nil hne
  rw [parseFirstline, if_neg (by simp), popLine_crlf hline]
  simp [hparse, bind, Except.bind]

/-! ## The header -/

section Header

variable {body : Request → Str → Except Fault Parsed}

/-- Without input the header parser waits. -/
theorem parseHeadersWith_nil : r.parseHeadersWith body [] = .ok (.needmore, r, []) := by
  rw [parseHeadersWith, readHeaders_eq, if_pos rfl]

/-- The fields of a header are entered one by one. -/
theorem parseHeadersWith_fields {fs : List Field} (hfs : ∀ f ∈ fs, f.WellFormed) {rest : Str}
    (hrest : NoFold rest) :
    r.parseHeadersWith body (fs.flatMap Field.text ++ rest) =
      parseHeadersWith body { r with headers := fs.foldl Field.enter r.headers } rest := by
  unfold parseHeadersWith
  rw [readHeaders_fields hfs hrest]

/-- The empty line ends the header. -/
theorem parseHeadersWith_crlf (rest : Str) :
    r.parseHeadersWith body (crlf ++ rest) = r.finishHeaders body rest := by
  rw [parseHeadersWith, readHeaders_crlf]

/-- The header of a message without body is its end. -/
theorem finishHeaders_bodyless (h : r.bodyless = .ok true) (buf : Str) :
    r.finishHeaders body buf = .ok (.allread, r, buf) := by
  simp [finishHeaders, h, bind, Except.bind]

/-- The header of a message with a body leads on to the body. -/
theorem finishHeaders_body (h : r.bodyless = .ok false) (hs : r.status = .readingHeaders)
    (buf : Str) : r.finishHeaders body buf = body { r with status := .readingBody } buf := by
  simp [finishHeaders, h, hs, bind, Except.bind]

/-- The end of the trailer is the end of the message. -/
theorem finishHeaders_trailer (h : r.bodyless = .ok false) (hs : r.status = .readingTrailer)
    (buf : Str) : r.finishHeaders body buf = .ok (.allread, r, buf) := by
  simp [finishHeaders, h, hs, bind, Except.bind]

end Header

/-- A first line and the fields behind it lead to the end of the header. -/
theorem parse_opening {line : Str} (hne : line ≠ []) (hline : Plain line) {r' : Request}
    (hstatus : r.status = .readingFirstline) (hparse : r.parseLine line = .ok (0, r'))
    {fs : List Field} (hfs : ∀ f ∈ fs, f.WellFormed) (rest : Str) :
    r.parse (line ++ (crlf ++ (fs.flatMap Field.text ++ (crlf ++ rest)))) =
      finishHeaders parseBody { r' with
        status := .readingHeaders, headers := fs.foldl Field.enter r'.headers } rest := by
  rw [parse, hstatus]
  simp only
  rw [parseFirstline_line hne hline hparse, parseHeaders,
    parseHeadersWith_fields hfs (noFold_crlf _), parseHeadersWith_crlf]

/-! ## Chunks -/

/-- Without input the chunk loop waits. -/
theorem readChunks_nil : r.readChunks [] = .ok (.needmore, r, []) := by
  rw [readChunks_eq, if_pos rfl]

/-- A size line announces a chunk. -/
theorem readChunks_size {line : Str} (hline : Plain line) (hr : r.ntoread < 0) {n : ℤ}
    (hn : stol 16 line = .ok n) (hpos : 0 < n) (rest : Str) :
    r.readChunks (line ++ (crlf ++ rest)) = readChunks { r with ntoread := n } rest := by
  have hne : line ≠ [] := ne_nil_of_stol hn
  rw [readChunks_eq, if_neg (by simp [hne]), if_pos hr, popLine_crlf hline]
  simp only [hn, bind, Except.bind]
  rw [if_neg (by simp only [hne, false_or]; omega), if_neg (by omega)]

/-- The size 0 announces the trailer. -/
theorem readChunks_last {line : Str} (hline : Plain line) (hr : r.ntoread < 0)
    (hn : stol 16 line = .ok 0) (rest : Str) :
    r.readChunks (line ++ (crlf ++ rest)) =
      parseTrailer { r with ntoread := 0, status := .readingTrailer } rest := by
  have hne : line ≠ [] := ne_nil_of_stol hn
  rw [readChunks_eq, if_neg (by simp [hne]), if_pos hr, popLine_crlf hline]
  simp only [hn, bind, Except.bind]
  rw [if_neg (by simp [hne]), if_pos trivial]

/-- The bytes of a chunk go to the body, and the line end behind them goes with them. -/
theorem readChunks_data {data : Str} (hdata : data ≠ []) (hr : r.ntoread = data.length)
    (rest : Str) :
    r.readChunks (data ++ (crlf ++ rest)) =
      readChunks { r with buf := r.buf ++ (data ++ crlf), ntoread := -1 } rest := by
  have hpos := List.length_pos_iff.mpr hdata
  have hmove : move r.buf (data ++ (crlf ++ rest)) (r.ntoread + 2) = (r.buf ++ (data ++ crlf), rest) := by
    rw [← List.append_assoc data]
    exact move_append r.buf (data ++ crlf) rest (by simp [hr, crlf])
  rw [readChunks_eq, if_neg (by simp [hdata]), if_neg (by omega), if_neg (by simp; omega), hmove]

/-! ## The choice of the framing -/

/-- A chunked body. -/
theorem parseBody_chunked (h : r.headers[str "Transfer-Encoding"]? = some (str "chunked"))
    (buf : Str) :
    r.parseBody buf = readChunks { r with chunked := true, ntoread := -1 } buf := by
  have hmem : str "Transfer-Encoding" ∈ r.headers := by
    rw [Std.ExtTreeMap.mem_iff_isSome_getElem?, h]
    rfl
  have hsub : r.headers.subscript (str "Transfer-Encoding") = (str "chunked", r.headers) := by
    rw [Headers.subscript, h, if_pos hmem, Option.getD_some]
  simp [parseBody, hsub, readBody]

/-- The map after `parse_body` has looked for the framing of a body that is not chunked. -/
def lookedUp (h : Headers) : Headers :=
  (((h.subscript (str "Transfer-Encoding")).2.subscript (str "Content-Length")).2.subscript
    (str "Connection")).2

/-- The entries when a name has been looked up. -/
theorem getElem?_subscript (h : Headers) (k key : Str) :
    (h.subscript k).2[key]? = if k = key then some (h[k]?.getD []) else h[key]? := by
  unfold Headers.subscript
  by_cases hk : k ∈ h
  · rw [if_pos hk]
    by_cases he : k = key
    · subst he
      obtain ⟨v, hv⟩ := Option.isSome_iff_exists.mp (Std.ExtTreeMap.mem_iff_isSome_getElem?.mp hk)
      simp [hv]
    · simp [he]
  · rw [if_neg hk, Std.ExtTreeMap.getElem?_insert]
    have hnone : h[k]? = none := by simpa using hk
    simp [hnone]

/-- The value under a key is the same after every look at the map. -/
theorem getD_subscript (h : Headers) (k key : Str) :
    (h.subscript k).2[key]?.getD [] = h[key]?.getD [] := by
  rw [getElem?_subscript]
  by_cases he : k = key
  · simp [he]
  · simp [he]

/-- A body of a given length: it is complete when all its bytes are there. -/
theorem parseBody_length (hte : r.headers[str "Transfer-Encoding"]?.getD [] ≠ str "chunked")
    (hchunked : r.chunked = false) {n : ℕ} {v : Str}
    (hv : r.headers[str "Content-Length"]?.getD [] = v) (hne : v ≠ []) (hn : stol 10 v = .ok n)
    (buf : Str) :
    r.parseBody buf =
      if buf.length ≥ n then
        .ok (.allread, { r with
          headers := lookedUp r.headers, ntoread := n, buf := r.buf ++ buf.take n }, buf.drop n)
      else .ok (.needmore, { r with headers := lookedUp r.headers, ntoread := n }, buf) := by
  have hcl : ((r.headers.subscript (str "Transfer-Encoding")).2.subscript
      (str "Content-Length")).1 = v := by
    rw [← hv, ← getD_subscript r.headers (str "Transfer-Encoding") (str "Content-Length")]
    rfl
  have hte' : (r.headers.subscript (str "Transfer-Encoding")).1 ≠ str "chunked" := hte
  have hlen : getBodyLength { r with headers := (r.headers.subscript (str "Transfer-Encoding")).2 } =
      .ok (0, { r with headers := lookedUp r.headers, ntoread := n }) := by
    have hneg : ¬(n : ℤ) < 0 := by omega
    simp only [getBodyLength, hcl, if_neg hne, hn, bind, Except.bind, if_neg hneg]
    rfl
  rw [parseBody]
  simp only [if_neg hte', hlen, bind, Except.bind]
  rw [if_neg (by decide), readBody]
  simp only [hchunked, Bool.false_eq_true, if_false]
  rw [if_neg (by omega)]
  by_cases hge : buf.length ≥ n
  · have hge' : (buf.length : ℤ) ≥ n := by omega
    rw [if_pos hge', if_pos hge]
    simp [move, clamp_of_le hge]
  · have hge' : ¬(buf.length : ℤ) ≥ n := by omega
    rw [if_neg hge', if_neg hge]

end Request

end Libio
