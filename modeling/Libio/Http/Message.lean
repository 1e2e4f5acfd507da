import Libio.Http.Steps

/-! # Messages

A message on the wire: its first line, its header and its body, and what makes it well formed. The
parser takes a message part by part, so it reads a whole message as what it says: this file has the
state of the parser behind each part. -/

namespace Libio

open ByteQueue

/-! ## The parts of a message -/

/-- The first line of a message. -/
inductive StartLine
  | request (type : RequestType) (target : Str) (minor : ℕ)
  | response (minor code : ℕ) (reason : Str)
  deriving DecidableEq

namespace StartLine

/-- Whether the line starts a request or a response. -/
def kind : StartLine → RequestKind
  | .request .. => .request
  | .response .. => .response

/-- The bytes of the line, without its line end. -/
def text : StartLine → Str
  | .request type target minor => Request.requestLine type target minor
  | .response minor code reason => Request.statusLine minor (stdToString code) reason

/-- A line that can start a message: the protocol is HTTP/1.0 or HTTP/1.1, a target has no blank and
no escape that is cut off, a code has three digits. -/
def WellFormed : StartLine → Prop
  | .request _ target minor =>
      (minor = 0 ∨ minor = 1) ∧ Plain target ∧ (32 : UInt8) ∉ target ∧
        truncatedEscape (pathOf target) = false
  | .response minor code reason =>
      (minor = 0 ∨ minor = 1) ∧ (100 ≤ code ∧ code ≤ 999) ∧ Plain reason

/-- The message ends with its header, whatever the header says. -/
def Bodyless : StartLine → Prop
  | .request type _ _ => type ≠ .post
  | .response _ code _ => code = 204 ∨ code = 304 ∨ code < 200

instance : DecidablePred Bodyless
  | .request type _ _ => inferInstanceAs (Decidable (type ≠ .post))
  | .response _ code _ => inferInstanceAs (Decidable (code = 204 ∨ code = 304 ∨ code < 200))

end StartLine

/-- A text that starts with the digits of a number. What follows them is an extension. -/
def Denotes (b : ℕ) (s : Str) (n : ℕ) : Prop :=
  ∃ ds ext, s = ds ++ ext ∧ ds ≠ [] ∧ (∀ c ∈ ds, isDigit b c) ∧ digitsVal b ds = n ∧
    StopsDigits b ext

/-- A chunk: the line with its size and its data. -/
structure Chunk where
  size : Str
  data : Str
  deriving DecidableEq

namespace Chunk

/-- The bytes of a chunk. -/
def text (c : Chunk) : Str := c.size ++ (crlf ++ (c.data ++ crlf))

/-- A chunk that is not the last one: its size line gives the length of its data. -/
structure WellFormed (c : Chunk) : Prop where
  plain : Plain c.size
  data : c.data ≠ []
  size : Denotes 16 c.size c.data.length

end Chunk

/-- A body, by its framing. A chunked body ends with a line of size 0 and a trailer. -/
inductive Body
  | absent
  | length (payload : Str)
  | chunked (chunks : List Chunk) (last : Str) (trailer : List Field)
  deriving DecidableEq

namespace Body

/-- The bytes of a body. -/
def text : Body → Str
  | .absent => []
  | .length payload => payload
  | .chunked chunks last trailer =>
      chunks.flatMap Chunk.text ++ (last ++ (crlf ++ (trailer.flatMap Field.text ++ crlf)))

/-- What the parser makes of a body: of each chunk its data and the line end behind them. -/
def content : Body → Str
  | .absent => []
  | .length payload => payload
  | .chunked chunks _ _ => chunks.flatMap fun c => c.data ++ crlf

end Body

/-- A message. -/
structure Message where
  start : StartLine
  fields : List Field := []
  body : Body := .absent
  deriving DecidableEq

namespace Message

variable (m : Message)

/-- The bytes up to the end of the header. -/
def head : Str := m.start.text ++ (crlf ++ (m.fields.flatMap Field.text ++ crlf))

/-- The bytes of a message. -/
def text : Str := m.head ++ m.body.text

/-- The map the parser makes of some of the fields. -/
def mapOf (fs : List Field) : Headers := fs.foldl Field.enter ∅

/-- The header announces chunks, and all parts of the body are well formed. -/
structure ChunksFramed (chunks : List Chunk) (last : Str) (trailer : List Field) : Prop where
  encoding : (mapOf m.fields)[str "Transfer-Encoding"]? = some (str "chunked")
  chunks : ∀ c ∈ chunks, c.WellFormed
  last_plain : Plain last
  last : Denotes 16 last 0
  trailer : ∀ f ∈ trailer, f.WellFormed

/-- The header announces the framing of the body. A message whose body is absent announces no
framing or is one that ends with its header. -/
def Framed : Prop :=
  match m.body with
  | .absent => m.start.Bodyless ∨
      ∀ f ∈ m.fields, f.name ≠ str "Transfer-Encoding" ∧ f.name ≠ str "Content-Length"
  | .length payload => (∀ f ∈ m.fields, f.name ≠ str "Transfer-Encoding") ∧
      ∃ v, (mapOf m.fields)[str "Content-Length"]? = some v ∧ Denotes 10 v payload.length
  | .chunked chunks last trailer => m.ChunksFramed chunks last trailer

/-- A message that can be sent: its parts are well formed, its header announces the framing, and it
fits into a buffer. -/
structure WellFormed : Prop where
  start : m.start.WellFormed
  fields : ∀ f ∈ m.fields, f.WellFormed
  framed : m.Framed
  size : m.text.length ≤ 2 ^ 30

variable {m} in
/-- What the header of a message without a body is like. -/
theorem WellFormed.of_absent (h : m.WellFormed) (hbody : m.body = .absent) :
    m.start.Bodyless ∨
      ∀ f ∈ m.fields, f.name ≠ str "Transfer-Encoding" ∧ f.name ≠ str "Content-Length" := by
  have hframed := h.framed
  rwa [Framed, hbody] at hframed

variable {m} in
/-- What the header of a message with a length is like. -/
theorem WellFormed.of_length {payload : Str} (h : m.WellFormed) (hbody : m.body = .length payload) :
    (∀ f ∈ m.fields, f.name ≠ str "Transfer-Encoding") ∧
      ∃ v, (mapOf m.fields)[str "Content-Length"]? = some v ∧ Denotes 10 v payload.length := by
  have hframed := h.framed
  rwa [Framed, hbody] at hframed

variable {m} in
/-- What the header of a chunked message is like. -/
theorem WellFormed.of_chunked {chunks : List Chunk} {last : Str} {trailer : List Field}
    (h : m.WellFormed) (hbody : m.body = .chunked chunks last trailer) :
    m.ChunksFramed chunks last trailer := by
  have hframed := h.framed
  rwa [Framed, hbody] at hframed

/-- The end of the message can be told from its bytes. The other messages end with the
connection. -/
def Delimited : Prop := m.body = .absent → m.start.Bodyless

/-- How many bytes of the body the parser hands out or leaves in its input: of a message that ends
with its header, all of them are left. -/
def kept : ℕ := if m.start.Bodyless then m.body.text.length else m.body.content.length

/-- A new request object for a message of this kind. -/
def receiver : Request := { kind := m.start.kind }

end Message

/-! ## Numbers -/

/-- A text that denotes a number is read as this number. -/
theorem Denotes.stol {b : ℕ} {s : Str} {n : ℕ} (h : Denotes b s n) (hn : (n : ℤ) ≤ longMax) :
    stol b s = .ok n := by
  obtain ⟨ds, ext, rfl, hne, hds, rfl, hext⟩ := h
  exact convert_digits hne hds hext (by decide) hn

/-! ## The first line -/

/-- What a first line enters: it leaves the data of the body as they are, and the object knows
whether there is one. -/
structure Request.Started (start : StartLine) (r : Request) : Prop where
  headers : r.headers = ∅
  buf : r.buf = []
  chunked : r.chunked = false
  bodyless : r.bodyless = .ok (start.Bodyless : Bool)

/-- Behind a start line without a body none is expected. -/
theorem Request.Started.bodyless_true {start : StartLine} {r : Request} (hr : r.Started start)
    (hb : start.Bodyless) : r.bodyless = .ok true := by
  rw [hr.bodyless, decide_eq_true hb]

/-- Behind the other start lines one is. -/
theorem Request.Started.bodyless_false {start : StartLine} {r : Request} (hr : r.Started start)
    (hb : ¬start.Bodyless) : r.bodyless = .ok false := by
  rw [hr.bodyless, decide_eq_false hb]

namespace StartLine

variable {start : StartLine}

/-- A start line is not empty. -/
theorem text_ne_nil (start : StartLine) : start.text ≠ [] := by
  cases start <;> simp [text, Request.requestLine, Request.statusLine]

/-- A well-formed start line has no line end and no NUL. -/
theorem WellFormed.plain (h : start.WellFormed) : Plain start.text := by
  cases start with
  | request type target minor =>
      obtain ⟨hminor, hplain, -, -⟩ := h
      exact Request.plain_requestLine type hplain (by exact_mod_cast hminor)
  | response minor code reason =>
      obtain ⟨hminor, -, hplain⟩ := h
      exact Request.plain_statusLine (by exact_mod_cast hminor) (plain_stdToString code) hplain

end StartLine

namespace Message

variable {m : Message}

/-- A well-formed first line is accepted. -/
theorem parseLine_start (h : m.start.WellFormed) :
    ∃ r, m.receiver.parseLine m.start.text = .ok (0, r) ∧ r.Started m.start := by
  unfold receiver Request.parseLine
  cases hstart : m.start with
  | request type target minor =>
      rw [hstart] at h
      obtain ⟨hminor, -, hblank, hescape⟩ := h
      obtain ⟨uri, huri⟩ := (stringFromUtf8_isOk _).mpr hescape
      have hversion : (minor : ℤ) = 0 ∨ (minor : ℤ) = 1 := by exact_mod_cast hminor
      have hparse := Request.parseRequestLine_eq (r := { kind := .request }) rfl type hblank huri
        hversion
      exact ⟨_, hparse, rfl, rfl, rfl, rfl⟩
  | response minor code reason =>
      rw [hstart] at h
      obtain ⟨hminor, ⟨hlo, hhi⟩, -⟩ := h
      have hcode : stoi (stdToString code) = .ok code :=
        stoi_stdToString (by omega) (by unfold intMax; omega)
      have hblank : (32 : UInt8) ∉ stdToString code := fun hc =>
        not_space_stdToString code _ hc (by decide)
      have hversion : (minor : ℤ) = 0 ∨ (minor : ℤ) = 1 := by exact_mod_cast hminor
      have hparse := Request.parseResponseLine_eq (r := { kind := .response }) hversion hblank hcode
        reason
      refine ⟨_, hparse, rfl, rfl, rfl, ?_⟩
      have hmod : httpCode code = code := Int.emod_eq_of_lt (by omega) (by omega)
      have hiff : ((code : ℤ) = 204 ∨ (code : ℤ) = 304 ∨ (100 ≤ (code : ℤ) ∧ (code : ℤ) < 200)) ↔
          (StartLine.response minor code reason).Bodyless := by
        unfold StartLine.Bodyless
        omega
      simp only [Request.bodyless, hmod, httpNocontent, httpNotmodified]
      exact congrArg Except.ok (decide_eq_decide.mpr hiff)

end Message

/-! ## The header -/

namespace Request

variable {r : Request} {start : StartLine}

/-- The parser in the header, behind some of the fields. -/
def inHeader (r : Request) (fs : List Field) : Request :=
  { r with status := .readingHeaders, headers := Message.mapOf fs }

/-- The parser behind the header of a message that may have a body. -/
def inBody (r : Request) (fs : List Field) : Request :=
  { r.inHeader fs with status := .readingBody }

/-- Behind the first line the parser is in the header. -/
theorem parse_start {m : Message} (h : m.start.WellFormed) (hr : r.Started m.start)
    (hline : m.receiver.parseLine m.start.text = .ok (0, r)) (rest : Str) :
    m.receiver.parse (m.start.text ++ (crlf ++ rest)) = (r.inHeader []).parseHeaders rest := by
  have hstatus : m.receiver.status = .readingFirstline := rfl
  have hempty : { r with status := .readingHeaders } = r.inHeader [] := by
    rw [inHeader, Message.mapOf, List.foldl_nil, ← hr.headers]
  rw [parse, hstatus]
  simp only
  rw [parseFirstline_line m.start.text_ne_nil h.plain hline, hempty]

/-- Behind the fields the parser has entered them. -/
theorem parseHeaders_fields {fs : List Field} (hfs : ∀ f ∈ fs, f.WellFormed) {rest : Str}
    (hrest : NoFold rest) :
    (r.inHeader []).parseHeaders (fs.flatMap Field.text ++ rest) =
      (r.inHeader fs).parseHeaders rest :=
  parseHeadersWith_fields hfs hrest

/-- Behind the header the parser goes on to the body. -/
theorem parse_head {m : Message} (h : m.WellFormed) (hr : r.Started m.start)
    (hline : m.receiver.parseLine m.start.text = .ok (0, r)) (rest : Str) :
    m.receiver.parse (m.head ++ rest) = (r.inHeader m.fields).finishHeaders parseBody rest := by
  have hhead : m.head ++ rest =
      m.start.text ++ (crlf ++ (m.fields.flatMap Field.text ++ (crlf ++ rest))) := by
    simp [Message.head]
  rw [hhead, parse_opening m.start.text_ne_nil h.start.plain rfl hline h.fields rest, hr.headers]
  rfl

/-- A message that ends with its header is complete there. -/
theorem finishHeaders_of_bodyless (hr : r.Started start) (hb : start.Bodyless) (fs : List Field)
    (body : Request → Str → Except Fault Parsed) (rest : Str) :
    (r.inHeader fs).finishHeaders body rest = .ok (.allread, r.inHeader fs, rest) :=
  finishHeaders_bodyless (r := r.inHeader fs) (hr.bodyless_true hb) rest

/-- The other messages go on with their body. -/
theorem finishHeaders_of_not_bodyless (hr : r.Started start) (hb : ¬start.Bodyless)
    (fs : List Field) (body : Request → Str → Except Fault Parsed) (rest : Str) :
    (r.inHeader fs).finishHeaders body rest = body (r.inBody fs) rest :=
  finishHeaders_body (r := r.inHeader fs) (hr.bodyless_false hb) rfl rest

/-! ## A body of a given length -/

/-- Looking up a name that is there enters nothing. -/
theorem subscript_of_mem {h : Headers} {key : Str} (hkey : key ∈ h) : (h.subscript key).2 = h := by
  rw [Headers.subscript, if_pos hkey]

/-- Looking up a name enters it. -/
theorem mem_subscript (h : Headers) (k key : Str) :
    key ∈ (h.subscript k).2 ↔ k = key ∨ key ∈ h := by
  rw [Std.ExtTreeMap.mem_iff_isSome_getElem?, Std.ExtTreeMap.mem_iff_isSome_getElem?,
    getElem?_subscript]
  by_cases he : k = key
  · simp [he]
  · simp [he]

/-- Looking for the framing a second time changes nothing. -/
theorem lookedUp_lookedUp (h : Headers) : lookedUp (lookedUp h) = lookedUp h := by
  have hte : str "Transfer-Encoding" ∈ lookedUp h := by simp [lookedUp, mem_subscript]
  have hcl : str "Content-Length" ∈ lookedUp h := by simp [lookedUp, mem_subscript]
  have hconn : str "Connection" ∈ lookedUp h := by simp [lookedUp, mem_subscript]
  rw [lookedUp, subscript_of_mem hte, subscript_of_mem hcl, subscript_of_mem hconn]

/-- Looking up names changes no value. -/
theorem getD_lookedUp (h : Headers) (key : Str) :
    (lookedUp h)[key]?.getD [] = h[key]?.getD [] := by
  rw [lookedUp, getD_subscript, getD_subscript, getD_subscript]

/-! ## A chunked body -/

/-- The chunks go to the body one by one, each with the line end behind it. -/
theorem readChunks_chunks {cs : List Chunk}
    (hcs : ∀ c ∈ cs, c.WellFormed ∧ (c.data.length : ℤ) ≤ longMax) (hr : r.ntoread = -1)
    (rest : Str) :
    r.readChunks (cs.flatMap Chunk.text ++ rest) =
      readChunks { r with buf := r.buf ++ cs.flatMap fun c => c.data ++ crlf } rest := by
  induction cs generalizing r with
  | nil => simp
  | cons c cs ih =>
      obtain ⟨hc, hlen⟩ := hcs c (by simp)
      have hpos := List.length_pos_iff.mpr hc.data
      have htext : (c :: cs).flatMap Chunk.text ++ rest =
          c.size ++ (crlf ++ (c.data ++ (crlf ++ (cs.flatMap Chunk.text ++ rest)))) := by
        simp [Chunk.text]
      rw [htext, readChunks_size hc.plain (by omega) (hc.size.stol hlen) (by omega),
        readChunks_data hc.data rfl, ih (fun c' hc' => hcs c' (by simp [hc'])) rfl]
      simp [← hr]

/-- The fields of the trailer are entered as those of the header are. -/
theorem parseTrailer_fields {fs : List Field} (hfs : ∀ f ∈ fs, f.WellFormed) {rest : Str}
    (hrest : NoFold rest) :
    r.parseTrailer (fs.flatMap Field.text ++ rest) =
      parseTrailer { r with headers := fs.foldl Field.enter r.headers } rest :=
  parseHeadersWith_fields hfs hrest

end Request

/-! ## Whole messages -/

namespace Request

variable (r : Request) (fs : List Field)

/-- The parser in a body of a given length. -/
def inLength (n : ℕ) : Request :=
  { r.inBody fs with headers := lookedUp (Message.mapOf fs), ntoread := n }

/-- The parser in a chunked body, behind some of the chunks. -/
def inChunks (cs : List Chunk) : Request :=
  { r.inBody fs with chunked := true, ntoread := -1, buf := cs.flatMap fun c => c.data ++ crlf }

/-- The parser in the trailer, behind some of its fields. -/
def inTrailer (cs : List Chunk) (ts : List Field) : Request :=
  { r.inChunks fs cs with
    status := .readingTrailer, ntoread := 0, headers := Message.mapOf (fs ++ ts) }

variable {r fs}

/-- A body of a given length is complete when all its bytes are there. -/
theorem parseBody_inBody_length {start : StartLine} (hr : r.Started start)
    (hte : ∀ f ∈ fs, f.name ≠ str "Transfer-Encoding") {v : Str} {n : ℕ}
    (hv : (Message.mapOf fs)[str "Content-Length"]? = some v) (hn : Denotes 10 v n)
    (hmax : (n : ℤ) ≤ longMax) (rest : Str) :
    (r.inBody fs).parseBody rest =
      if rest.length ≥ n then
        .ok (.allread, { r.inLength fs n with buf := rest.take n }, rest.drop n)
      else .ok (.needmore, r.inLength fs n, rest) := by
  have hencoding : (r.inBody fs).headers[str "Transfer-Encoding"]?.getD [] ≠ str "chunked" := by
    show (Message.mapOf fs)[_]?.getD [] ≠ _
    rw [Message.mapOf, getElem?_foldl_enter_of_ne hte]
    decide +kernel
  have hlength : (r.inBody fs).headers[str "Content-Length"]?.getD [] = v := by
    show (Message.mapOf fs)[_]?.getD [] = v
    rw [hv]
    rfl
  have hstol := hn.stol hmax
  have hbuf : (r.inBody fs).buf ++ rest.take n = rest.take n := by
    show r.buf ++ _ = _
    rw [hr.buf, List.nil_append]
  rw [parseBody_length hencoding hr.chunked hlength (ne_nil_of_stol hstol) hstol, hbuf]
  rfl

/-- Reading on in a body of a given length is reading it again from its start. -/
theorem parseBody_inLength {start : StartLine} (hr : r.Started start)
    (hte : ∀ f ∈ fs, f.name ≠ str "Transfer-Encoding") {v : Str} {n : ℕ}
    (hv : (Message.mapOf fs)[str "Content-Length"]? = some v) (hn : Denotes 10 v n)
    (hmax : (n : ℤ) ≤ longMax) (rest : Str) :
    (r.inLength fs n).parseBody rest = (r.inBody fs).parseBody rest := by
  have hget : ∀ key, (r.inLength fs n).headers[key]?.getD [] = (Message.mapOf fs)[key]?.getD [] :=
    getD_lookedUp _
  have hencoding : (r.inLength fs n).headers[str "Transfer-Encoding"]?.getD [] ≠ str "chunked" := by
    rw [hget, Message.mapOf, getElem?_foldl_enter_of_ne hte]
    decide +kernel
  have hlength : (r.inLength fs n).headers[str "Content-Length"]?.getD [] = v := by
    rw [hget, hv]
    rfl
  have hstol := hn.stol hmax
  have hbuf : (r.inLength fs n).buf ++ rest.take n = rest.take n := by
    show r.buf ++ _ = _
    rw [hr.buf, List.nil_append]
  have hlooked : lookedUp (r.inLength fs n).headers = (r.inLength fs n).headers :=
    lookedUp_lookedUp _
  rw [parseBody_inBody_length hr hte hv hn hmax, parseBody_length hencoding hr.chunked hlength
    (ne_nil_of_stol hstol) hstol, hbuf, hlooked]
  rfl

/-- A body without a framing is read until the connection ends. -/
theorem parseBody_unframed (hte : r.headers[str "Transfer-Encoding"]?.getD [] ≠ str "chunked")
    (hchunked : r.chunked = false) (hcl : r.headers[str "Content-Length"]?.getD [] = [])
    (buf : Str) :
    r.parseBody buf = .ok (.needmore,
      { r with headers := lookedUp r.headers, ntoread := -1, buf := r.buf ++ buf }, []) := by
  have hlength : ((r.headers.subscript (str "Transfer-Encoding")).2.subscript
      (str "Content-Length")).1 = [] := by
    rw [← hcl, ← getD_subscript r.headers (str "Transfer-Encoding") (str "Content-Length")]
    rfl
  have hencoding : (r.headers.subscript (str "Transfer-Encoding")).1 ≠ str "chunked" := hte
  have hlen : getBodyLength
      { r with headers := (r.headers.subscript (str "Transfer-Encoding")).2 } =
      .ok (0, { r with headers := lookedUp r.headers, ntoread := -1 }) := by
    simp only [getBodyLength, hlength]
    rfl
  rw [parseBody]
  simp only [if_neg hencoding, hlen, bind, Except.bind]
  rw [if_neg (by decide), readBody]
  simp only [hchunked, Bool.false_eq_true, if_false]
  rw [if_pos (by decide)]
  simp [move, clamp]

/-- In a chunked body the parser reads chunks. -/
theorem parseBody_chunks (hte : (Message.mapOf fs)[str "Transfer-Encoding"]? = some (str "chunked"))
    (cs : List Chunk) (rest : Str) :
    (r.inChunks fs cs).parseBody rest = (r.inChunks fs cs).readChunks rest :=
  parseBody_chunked (r := r.inChunks fs cs) hte rest

/-- The body of a chunked message is read in chunks. -/
theorem parseBody_inBody_chunked {start : StartLine} (hr : r.Started start)
    (hte : (Message.mapOf fs)[str "Transfer-Encoding"]? = some (str "chunked")) (rest : Str) :
    (r.inBody fs).parseBody rest = (r.inChunks fs []).readChunks rest := by
  have hbuf : (r.inBody fs).buf = [] := hr.buf
  rw [parseBody_chunked hte]
  simp only [inChunks, List.flatMap_nil, ← hbuf]

/-- The chunks are read one by one. -/
theorem readChunks_inChunks {cs : List Chunk}
    (hcs : ∀ c ∈ cs, c.WellFormed ∧ (c.data.length : ℤ) ≤ longMax) (rest : Str) :
    (r.inChunks fs []).readChunks (cs.flatMap Chunk.text ++ rest) =
      (r.inChunks fs cs).readChunks rest :=
  readChunks_chunks hcs rfl rest

/-- The line of size 0 leads on to the trailer. -/
theorem readChunks_inTrailer {cs : List Chunk} {last : Str} (hplain : Plain last)
    (hlast : Denotes 16 last 0) {ts : List Field} (hts : ∀ f ∈ ts, f.WellFormed) {rest : Str}
    (hrest : NoFold rest) :
    (r.inChunks fs cs).readChunks (last ++ (crlf ++ (ts.flatMap Field.text ++ rest))) =
      (r.inTrailer fs cs ts).parseTrailer rest := by
  rw [readChunks_last hplain (show (-1 : ℤ) < 0 by decide) (hlast.stol (by decide)),
    parseTrailer_fields hts hrest]
  simp only [inTrailer, Message.mapOf, List.foldl_append]
  rfl

/-- The end of the trailer is the end of the message, whatever the map is. -/
theorem finishHeaders_inTrailer {start : StartLine} (hr : r.Started start) (hb : ¬start.Bodyless)
    (fs : List Field) (cs : List Chunk) (ts : List Field) (headers : Headers)
    (body : Request → Str → Except Fault Parsed) (rest : Str) :
    finishHeaders body { r.inTrailer fs cs ts with headers := headers } rest =
      .ok (.allread, { r.inTrailer fs cs ts with headers := headers }, rest) :=
  finishHeaders_trailer (r := { r.inTrailer fs cs ts with headers := headers })
    (hr.bodyless_false hb) rfl rest

/-- The empty line behind the trailer ends the message. -/
theorem parseTrailer_inTrailer {start : StartLine} (hr : r.Started start) (hb : ¬start.Bodyless)
    (cs : List Chunk) (ts : List Field) (rest : Str) :
    (r.inTrailer fs cs ts).parseTrailer (crlf ++ rest) =
      .ok (.allread, r.inTrailer fs cs ts, rest) := by
  rw [parseTrailer, parseHeadersWith_crlf]
  exact finishHeaders_inTrailer hr hb fs cs ts _ _ rest

end Request

namespace Message

variable {m : Message} {r : Request}

/-- The length of a message. -/
theorem length_text (m : Message) : m.text.length = m.head.length + m.body.text.length := by
  rw [text, List.length_append]

/-- What is in the body of a well-formed message fits into a buffer. -/
theorem WellFormed.length_le (h : m.WellFormed) {n : ℕ} (hn : n ≤ m.body.text.length) :
    (n : ℤ) ≤ longMax := by
  have hsize := h.size
  have hlength := m.length_text
  unfold longMax
  omega

/-- The data of a chunk are a part of the body. -/
theorem length_data_le {chunks : List Chunk} {last : Str} {trailer : List Field} {c : Chunk}
    (hc : c ∈ chunks) : c.data.length ≤ (Body.chunked chunks last trailer).text.length := by
  have hsub : c.text.Sublist (chunks.flatMap Chunk.text) := by
    rw [List.flatMap_def]
    exact List.sublist_flatten_of_mem (List.mem_map_of_mem hc)
  have hlength := hsub.length_le
  simp only [Chunk.text, Body.text, List.length_append] at hlength ⊢
  omega

/-- The chunks of a well-formed message. -/
theorem WellFormed.chunks (h : m.WellFormed) {chunks : List Chunk} {last : Str}
    {trailer : List Field} (hbody : m.body = .chunked chunks last trailer) :
    ∀ c ∈ chunks, c.WellFormed ∧ (c.data.length : ℤ) ≤ longMax := by
  intro c hc
  refine ⟨(h.of_chunked hbody).chunks c hc, h.length_le ?_⟩
  rw [hbody]
  exact length_data_le hc

section Parts

variable (h : m.WellFormed) (hr : r.Started m.start)
  (hline : m.receiver.parseLine m.start.text = .ok (0, r)) (hb : ¬m.start.Bodyless)
include h hr hline hb

/-- The parser at the body of a message. -/
theorem parse_head_body (rest : Str) :
    m.receiver.parse (m.head ++ rest) = (r.inBody m.fields).parseBody rest := by
  rw [Request.parse_head h hr hline, Request.finishHeaders_of_not_bodyless hr hb]

/-- The parser at a body of a given length. -/
theorem parse_length {payload : Str} (hbody : m.body = .length payload) (rest : Str) :
    m.receiver.parse (m.head ++ rest) =
      if rest.length ≥ payload.length then
        .ok (.allread, { r.inLength m.fields payload.length with buf := rest.take payload.length },
          rest.drop payload.length)
      else .ok (.needmore, r.inLength m.fields payload.length, rest) := by
  obtain ⟨hte, v, hv, hdenotes⟩ := h.of_length hbody
  have hmax : (payload.length : ℤ) ≤ longMax := h.length_le (by rw [hbody]; rfl)
  rw [parse_head_body h hr hline hb, Request.parseBody_inBody_length hr hte hv hdenotes hmax]

/-- The parser at the end of a message that does not say where its body ends. -/
theorem parse_absent (hbody : m.body = .absent) :
    ∃ u, m.receiver.parse m.head = .ok (.needmore, u, []) ∧ u.buf = [] := by
  have hfs := (h.of_absent hbody).resolve_left hb
  have hte : (r.inBody m.fields).headers[str "Transfer-Encoding"]?.getD [] ≠ str "chunked" := by
    show (mapOf m.fields)[_]?.getD [] ≠ _
    rw [mapOf, getElem?_foldl_enter_of_ne fun f hf => (hfs f hf).1]
    decide +kernel
  have hcl : (r.inBody m.fields).headers[str "Content-Length"]?.getD [] = [] := by
    show (mapOf m.fields)[_]?.getD [] = _
    rw [mapOf, getElem?_foldl_enter_of_ne fun f hf => (hfs f hf).2]
    rfl
  have hparse := parse_head_body h hr hline hb []
  rw [List.append_nil, Request.parseBody_unframed hte hr.chunked hcl] at hparse
  refine ⟨_, hparse, ?_⟩
  show r.buf ++ [] = []
  rw [hr.buf, List.append_nil]

variable {chunks : List Chunk} {last : Str} {trailer : List Field}
  (hbody : m.body = .chunked chunks last trailer)
include hbody

/-- The parser behind some of the chunks. -/
theorem parse_chunks {cs : List Chunk} (hcs : cs <+: chunks) (rest : Str) :
    m.receiver.parse (m.head ++ (cs.flatMap Chunk.text ++ rest)) =
      (r.inChunks m.fields cs).readChunks rest := by
  rw [parse_head_body h hr hline hb,
    Request.parseBody_inBody_chunked hr (h.of_chunked hbody).encoding,
    Request.readChunks_inChunks fun c hc => h.chunks hbody c (hcs.subset hc)]

/-- The parser behind some of the fields of the trailer. -/
theorem parse_trailer {ts : List Field} (hts : ts <+: trailer) {rest : Str} (hrest : NoFold rest) :
    m.receiver.parse (m.head ++ (chunks.flatMap Chunk.text ++
      (last ++ (crlf ++ (ts.flatMap Field.text ++ rest))))) =
      (r.inTrailer m.fields chunks ts).parseTrailer rest := by
  obtain ⟨-, -, hplain, hlast, htrailer⟩ := h.of_chunked hbody
  rw [parse_chunks h hr hline hb hbody (List.prefix_refl _),
    Request.readChunks_inTrailer hplain hlast (fun f hf => htrailer f (hts.subset hf)) hrest]

/-- The parser at the end of a chunked message. -/
theorem parse_chunked :
    m.receiver.parse m.text = .ok (.allread, r.inTrailer m.fields chunks trailer, []) := by
  have htext : m.text = m.head ++ (chunks.flatMap Chunk.text ++
      (last ++ (crlf ++ (trailer.flatMap Field.text ++ (crlf ++ []))))) := by
    simp [text, hbody, Body.text]
  rw [htext, parse_trailer h hr hline hb hbody (List.prefix_refl _) (noFold_crlf _),
    Request.parseTrailer_inTrailer hr hb]

end Parts

/-- **A whole message** is complete exactly when its end can be told from its bytes. -/
theorem parse_text (h : m.WellFormed) :
    ∃ res u left, m.receiver.parse m.text = .ok (res, u, left) ∧
      (res = .allread ↔ m.Delimited) ∧ u.buf.length + left.length = m.kept := by
  obtain ⟨r, hline, hr⟩ := parseLine_start h.start
  by_cases hb : m.start.Bodyless
  · refine ⟨.allread, r.inHeader m.fields, m.body.text, ?_, by simp [Delimited, hb], ?_⟩
    · rw [text, Request.parse_head h hr hline, Request.finishHeaders_of_bodyless hr hb]
    · show r.buf.length + _ = _
      simp [hr.buf, kept, hb]
  · rw [kept, if_neg hb]
    cases hbody : m.body with
    | absent =>
        obtain ⟨u, hparse, hbuf⟩ := parse_absent h hr hline hb hbody
        have htext : m.text = m.head := by rw [text, hbody, Body.text, List.append_nil]
        exact ⟨.needmore, u, [], htext ▸ hparse, by simp [Delimited, hb, hbody],
          by simp [hbuf, Body.content]⟩
    | length payload =>
        have hparse := parse_length h hr hline hb hbody payload
        rw [if_pos (le_refl payload.length), List.take_length, List.drop_length] at hparse
        have htext : m.text = m.head ++ payload := by rw [text, hbody, Body.text]
        exact ⟨_, _, _, htext ▸ hparse, by simp [Delimited, hbody], by simp [Body.content]⟩
    | chunked chunks last trailer =>
        exact ⟨_, _, _, parse_chunked h hr hline hb hbody, by simp [Delimited, hbody], rfl⟩

/-- What is handed out of a body is no longer than the body. -/
theorem kept_le (m : Message) : m.kept ≤ m.body.text.length := by
  have hchunks : ∀ chunks : List Chunk, (chunks.flatMap fun c => c.data ++ crlf).length ≤
      (chunks.flatMap Chunk.text).length := by
    intro chunks
    induction chunks with
    | nil => exact le_rfl
    | cons c chunks ih =>
        simp only [List.flatMap_cons, List.length_append, Chunk.text] at ih ⊢
        omega
  rw [kept]
  split
  · exact le_rfl
  · cases m.body with
    | absent | length payload => exact le_rfl
    | chunked chunks last trailer =>
        simp only [Body.content, Body.text, List.length_append]
        exact (hchunks chunks).trans (Nat.le_add_right _ _)

end Message

end Libio
