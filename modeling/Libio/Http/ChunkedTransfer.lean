import Libio.Http.Connection
import Libio.Http.Steps

/-! # Chunked replies

The encoder of chunked replies against the parser. The parser moves the line end behind a chunk into
the body along with the chunk, and takes an empty chunk for the last one, so what it hands out is
what was sent exactly when no chunk was sent. -/

namespace Libio

open ByteQueue

/-- A whole chunked reply: `send_chunk_start(HTTP_OK, reason)`, `send_chunk` for each buffer,
`send_chunk_end()`. -/
def Session.chunkedReply (s : Session) (now : Tm) (reason : Str) (chunks : List Str) : Session :=
  (chunks.foldl Session.sendChunk (s.sendChunkStart now httpOk reason)).sendChunkEnd

/-- A client reads a reply as this body: whatever follows the reply, the parser ends behind it and
has the body in its buffer. -/
def DecodesTo (wire body : Str) : Prop :=
  ∀ rest, ∃ r, Request.parse {} (wire ++ rest) = .ok (.allread, r, rest) ∧ r.buf = body

/-! ## What is sent -/

/-- The bytes of one chunk. -/
def chunkText (c : Str) : Str := hex c.length ++ (crlf ++ (c ++ crlf))

/-- The bytes that end a chunked body. -/
def lastChunk : Str := str "0" ++ (crlf ++ crlf)

namespace Session

variable (s : Session)

/-- `send_chunk` appends the text of a chunk. -/
@[simp] theorem sendChunk_writeBuffer (c : Str) :
    (s.sendChunk c).conn.writeBuffer = s.conn.writeBuffer ++ chunkText c := by
  simp [sendChunk, push, addWrite, chunkText]

/-- So do calls one after the other. -/
theorem foldl_sendChunk_writeBuffer (chunks : List Str) :
    (chunks.foldl sendChunk s).conn.writeBuffer =
      s.conn.writeBuffer ++ chunks.flatMap chunkText := by
  induction chunks generalizing s with
  | nil => simp
  | cons c chunks ih => simp [ih]

end Session

/-- The header map of the reply a chunked transfer starts with. -/
def chunkedHeaders (now : Tm) : Headers :=
  ((((∅ : Headers).insert (str "Date") (getDate now)).insert (str "Connection")
    (str "keep-alive")).insert (str "Content-Length") (stdToString 0)).insert
      (str "Transfer-Encoding") (str "chunked")

/-- The reply a chunked transfer starts with. -/
theorem setResponse_ok (now : Tm) (reason : Str) :
    let r := Request.setResponse {} now httpOk reason none
    r.headers.insert (str "Transfer-Encoding") (str "chunked") = chunkedHeaders now ∧ r.buf = [] ∧
      r.firstline = Request.statusLine 1 (stdToString 200) reason ++ crlf := by
  refine ⟨rfl, rfl, ?_⟩
  simp [Request.setResponse, Request.statusLine, Request.protocolText, httpOk, str,
    Request.defaultContent]

/-- The map can be sent. -/
theorem sendable_chunkedHeaders (now : Tm) : Sendable (chunkedHeaders now) := by
  have hname : ∀ k ∈ [str "Date", str "Connection", str "Content-Length", str "Transfer-Encoding"],
      HeaderName k := by
    decide +kernel
  exact ((((eachEntry_empty _).insert ⟨hname _ (by simp), plain_getDate now⟩).insert
    ⟨hname _ (by simp), by decide⟩).insert ⟨hname _ (by simp), plain_stdToString 0⟩).insert
      ⟨hname _ (by simp), by decide⟩

/-- **A chunked reply on the wire.** -/
theorem chunkedReply_writeBuffer (s : Session) (now : Tm) (reason : Str) (chunks : List Str) :
    (s.chunkedReply now reason chunks).conn.writeBuffer = s.conn.writeBuffer ++
      (Request.statusLine 1 (stdToString 200) reason ++ (crlf ++
        ((fieldsOf (chunkedHeaders now)).flatMap Field.text ++ (crlf ++
          (chunks.flatMap chunkText ++ lastChunk))))) := by
  obtain ⟨hheaders, hbuf, hline⟩ := setResponse_ok now reason
  have hend : ∀ s : Session, s.sendChunkEnd.conn.writeBuffer = s.conn.writeBuffer ++ lastChunk :=
    fun _ => rfl
  rw [Session.chunkedReply, hend, Session.foldl_sendChunk_writeBuffer, Session.sendChunkStart,
    Session.sendRequest, Session.addWrite, Session.sendTo, Request.sendTo_snd]
  simp only [Request.setHeader, hheaders, hbuf, hline, flatMap_headerLine]
  simp

/-! ## What is read -/

section Decode

variable {r : Request}

/-- The parser in front of the first chunk of a reply. -/
structure InChunks (r : Request) : Prop where
  status : r.status = .readingBody
  bodyless : r.bodyless = .ok false
  ntoread : r.ntoread < 0

/-- The end of a chunked body is read as such. -/
theorem readChunks_lastChunk (hr : InChunks r) (rest : Str) :
    r.readChunks (lastChunk ++ rest) =
      .ok (.allread, { r with ntoread := 0, status := .readingTrailer }, rest) := by
  have hbodyless : Request.bodyless { r with ntoread := 0, status := .readingTrailer } = .ok false :=
    hr.bodyless
  rw [lastChunk, List.append_assoc, List.append_assoc, Request.readChunks_last (by decide) hr.ntoread
    (by decide +kernel), Request.parseTrailer, Request.parseHeadersWith_crlf,
    Request.finishHeaders_trailer hbodyless rfl]

/-- A chunk with content goes to the body together with the line end behind it. -/
theorem readChunks_chunkText (hr : InChunks r) {c : Str} (hc : c ≠ [])
    (hlen : (c.length : ℤ) ≤ longMax) (rest : Str) :
    r.readChunks (chunkText c ++ rest) =
      Request.readChunks { r with buf := r.buf ++ (c ++ crlf), ntoread := -1 } rest := by
  have hn : stol 16 (hex c.length) = .ok c.length := stol_render (by decide) (by decide) hlen
  have hpos := List.length_pos_iff.mpr hc
  rw [chunkText, List.append_assoc, List.append_assoc, List.append_assoc,
    Request.readChunks_size (plain_hex _) hr.ntoread hn (by omega),
    Request.readChunks_data hc rfl]

/-- An empty chunk ends the message. -/
theorem readChunks_emptyChunk (hr : InChunks r) (rest : Str) :
    r.readChunks (chunkText [] ++ rest) =
      .ok (.allread, { r with ntoread := 0, status := .readingTrailer }, rest) :=
  readChunks_lastChunk hr rest

/-- A chunk too long for a `long` makes the conversion throw. -/
theorem readChunks_longChunk (hr : InChunks r) {c : Str} (hlen : longMax < (c.length : ℤ))
    (rest : Str) : r.readChunks (chunkText c ++ rest) = .error .outOfRange := by
  have hn : stol 16 (hex c.length) = .error .outOfRange :=
    stol_render_of_gt (by decide) (by decide) hlen
  have hne : hex c.length ≠ [] := render_ne_nil 16 _
  rw [chunkText, List.append_assoc, List.append_assoc, Request.readChunks_eq, if_neg (by simp [hne]),
    if_pos hr.ntoread, popLine_crlf (plain_hex _)]
  simp only [hn, bind, Except.bind]

/-- **Where the parser ends right behind a chunked body, it has two bytes too many for each
chunk.** -/
theorem length_of_readChunks (chunks : List Str) (hr : InChunks r) {rest : Str}
    {status : ParseStatus} {r' : Request}
    (h : r.readChunks (chunks.flatMap chunkText ++ (lastChunk ++ rest)) = .ok (status, r', rest)) :
    r'.buf.length = r.buf.length + chunks.flatten.length + 2 * chunks.length := by
  induction chunks generalizing r with
  | nil =>
      rw [List.flatMap_nil, List.nil_append, readChunks_lastChunk hr] at h
      simp only [Except.ok.injEq, Prod.mk.injEq] at h
      obtain ⟨-, rfl, -⟩ := h
      simp
  | cons c chunks ih =>
      rw [List.flatMap_cons, List.append_assoc] at h
      by_cases hc : c = []
      · -- the parser ends in front of the rest of the body
        subst hc
        rw [readChunks_emptyChunk hr] at h
        simp only [Except.ok.injEq, Prod.mk.injEq] at h
        have hlen := congrArg List.length h.2.2
        simp [lastChunk, crlf, str] at hlen
        omega
      · by_cases hlen : (c.length : ℤ) ≤ longMax
        · rw [readChunks_chunkText hr hc hlen] at h
          have := ih (r := { r with buf := r.buf ++ (c ++ crlf), ntoread := -1 })
            ⟨hr.status, hr.bodyless, show (-1 : ℤ) < 0 by decide⟩ h
          simp only [this, List.length_append, List.flatten_cons, List.length_cons, crlf,
            List.length_nil]
          omega
        · rw [readChunks_longChunk hr (by omega)] at h
          cases h

end Decode

/-- The parser at the first chunk of a reply with the header `h`. -/
def chunkReader (h : Headers) (reason : Str) : Request where
  headers := h
  status := .readingBody
  responseCode := some 200
  responseLine := reason
  chunked := true
  ntoread := -1

/-- A client that has read the header is in front of the chunks. -/
theorem inChunks_chunkReader (h : Headers) (reason : Str) : InChunks (chunkReader h reason) where
  status := rfl
  bodyless := rfl
  ntoread := show (-1 : ℤ) < 0 by decide

/-- The header of a chunked reply leads the parser to its first chunk. -/
theorem parse_chunkedHeader {reason : Str} (hreason : Plain reason) {fs : List Field}
    (hfs : ∀ f ∈ fs, f.WellFormed)
    (hte : (fs.foldl Field.enter ∅)[str "Transfer-Encoding"]? = some (str "chunked")) (rest : Str) :
    Request.parse {} (Request.statusLine 1 (stdToString 200) reason ++ (crlf ++
      (fs.flatMap Field.text ++ (crlf ++ rest)))) =
      (chunkReader (fs.foldl Field.enter ∅) reason).readChunks rest := by
  have hcode : stoi (stdToString 200) = .ok 200 := stoi_stdToString (by decide) (by decide)
  have hparse : ({} : Request).parseLine (Request.statusLine 1 (stdToString 200) reason) =
      .ok (0, { responseCode := some 200, responseLine := reason }) := by
    have hblank : (32 : UInt8) ∉ stdToString 200 := by decide +kernel
    have := Request.parseResponseLine_eq (r := {}) (.inr rfl : (1 : ℤ) = 0 ∨ _) hblank hcode reason
    rwa [show httpCode 200 = 200 by decide] at this
  have hline : Plain (Request.statusLine 1 (stdToString 200) reason) :=
    Request.plain_statusLine (.inr rfl) (plain_stdToString 200) hreason
  rw [Request.parse_opening (by simp [Request.statusLine]) hline rfl hparse hfs,
    Request.finishHeaders_body rfl rfl, Request.parseBody_chunked]
  · rfl
  · exact hte

/-- The parser of a chunked reply at its first chunk. -/
theorem parse_chunkedReply {s : Session} (hs : s.conn.writeBuffer = []) {reason : Str}
    (hreason : Plain reason) (now : Tm) (chunks : List Str) :
    ∃ r, InChunks r ∧ r.buf = [] ∧ ∀ rest,
      Request.parse {} ((s.chunkedReply now reason chunks).conn.writeBuffer ++ rest) =
        r.readChunks (chunks.flatMap chunkText ++ (lastChunk ++ rest)) := by
  have hte : ((fieldsOf (chunkedHeaders now)).foldl Field.enter ∅)[str "Transfer-Encoding"]? =
      some (str "chunked") := by
    rw [getElem?_foldl_fieldsOf, chunkedHeaders, Std.ExtTreeMap.getElem?_insert_self]
    decide
  refine ⟨chunkReader ((fieldsOf (chunkedHeaders now)).foldl Field.enter ∅) reason,
    inChunks_chunkReader _ reason, rfl, fun rest => ?_⟩
  rw [← parse_chunkedHeader hreason (sendable_chunkedHeaders now).wellFormed hte,
    chunkedReply_writeBuffer, hs]
  simp

/-- **Chunked round trip.** What a client reads of a chunked reply is the concatenation of the
chunks, and the parser ends right behind the reply, exactly when there are no chunks. -/
theorem chunkedReply_decodesTo_iff {s : Session} (hs : s.conn.writeBuffer = []) {reason : Str}
    (hreason : Plain reason) (now : Tm) (chunks : List Str) :
    DecodesTo (s.chunkedReply now reason chunks).conn.writeBuffer chunks.flatten ↔ chunks = [] := by
  obtain ⟨r, hr, hnil, hread⟩ := parse_chunkedReply hs hreason now chunks
  constructor
  · intro h
    obtain ⟨r', hparse, hbuf⟩ := h []
    rw [hread] at hparse
    have hlen := length_of_readChunks chunks hr hparse
    rw [hbuf, hnil, List.length_nil] at hlen
    exact List.length_eq_zero_iff.mp (by omega)
  · rintro rfl rest
    exact ⟨_, (hread rest).trans (readChunks_lastChunk hr rest), hnil⟩

/-- A reply without chunks is read as the empty body. -/
theorem chunkedReply_decodesTo_iff_nil :
    DecodesTo ((Session.sole 5 []).chunkedReply newYear (str "OK") []).conn.writeBuffer [] :=
  (chunkedReply_decodesTo_iff (s := .sole 5 []) rfl (by decide) newYear []).mpr rfl

/-- A reply with one chunk is read with a line end too many. -/
theorem not_decodesTo_chunk :
    ¬DecodesTo ((Session.sole 5 []).chunkedReply newYear (str "OK") [str "abc"]).conn.writeBuffer
      [str "abc"].flatten := by
  intro h
  obtain ⟨r, hparse, hbuf⟩ := h []
  have hread : (Request.parse {} (((Session.sole 5 []).chunkedReply newYear (str "OK")
      [str "abc"]).conn.writeBuffer ++ [])).toOption.map (fun p => p.2.1.buf) =
        some (str "abc\r\n") := by
    decide +kernel
  rw [hparse] at hread
  simp only [Except.toOption, Option.map_some, Option.some.injEq, hbuf] at hread
  revert hread
  decide

end Libio
