import Libio.Http.BodyRoom
import Libio.Http.Replies
import Libio.Http.Steps

/-! # Responses

A response as `set_response` builds it and `send_to` writes it, against the parser of a client. The
builder decides from the code and the content whether there is a body, the parser from the code
alone whether to look for one. A response is read back, and nothing behind it is touched, exactly
when the two agree and a buffer has room for it (`respond_roundTrips_iff`). -/

namespace Libio

open ByteQueue

/-- An HTTP/1.1 response: `set_response(code, reason, content)` on a fresh object for the path
`uri`. -/
def respond (uri : Str) (now : Tm) (code : HttpCode) (reason : Str) (content : Option Str) : Request :=
  Request.setResponse { uri := uri } now code reason content

/-- `r'` is what a client should have of the response `r`. -/
structure ReadsBack (r r' : Request) : Prop where
  code : r'.responseCode = r.responseCode
  line : r'.responseLine = r.responseLine
  header : ∀ key, r'.getHeader key = r.getHeader key
  body : r'.buf = r.buf

/-- A client reads the response `r` off the front of a buffer: a call of `parse` with a fresh object
returns, with all of it, and leaves `rest`. -/
def ReadsResponse (buf : Str) (r : Request) (rest : Str) : Prop :=
  Request.ParseReturns {} buf ∧ Request.parse {} buf = .ok (.allread, r, rest)

/-- A response whose body fits a buffer is read when it is parsed. -/
theorem ReadsResponse.of_parse {buf rest : Str} {r : Request}
    (hparse : Request.parse {} buf = .ok (.allread, r, rest)) (hfits : r.buf.length ≤ 2 ^ 30) :
    ReadsResponse buf r rest :=
  ⟨Request.parseReturns_of_result hparse hfits, hparse⟩

/-- A code whose responses the parser takes to have no body. -/
def Bodyless (code : HttpCode) : Prop :=
  code = httpNocontent ∨ code = httpNotmodified ∨ (100 ≤ code ∧ code < 200)

instance (code : HttpCode) : Decidable (Bodyless code) := inferInstanceAs (Decidable (_ ∨ _))

/-- Builder and parser agree on whether there is a body: a code without body comes with an empty
content, or is the one for which the builder makes up no page. -/
def BodyAgrees (code : HttpCode) (content : Option Str) : Prop :=
  Bodyless code → content = some [] ∨ (content = none ∧ code = httpNocontent)

/-! ## What is sent -/

/-- The body of a response. -/
def responseBody (uri : Str) (code : HttpCode) (reason : Str) : Option Str → Str
  | some c => c
  | none =>
      if code = httpOk then []
      else if code = httpNotfound then Request.notFoundPage uri
      else if code = httpNocontent then []
      else Request.errorPage code reason

/-- The header of a response with a body of this length. -/
def responseHeaders (now : Tm) (length : ℕ) : Headers :=
  let h := (((∅ : Headers).insert (str "Date") (getDate now)).insert (str "Connection")
    (str "keep-alive")).insert (str "Content-Length") (stdToString length)
  if length > 0 then
    (h.insert (str "Content-Length") (stdToString length)).insert (str "Content-Type")
      (str "text/html; charset=utf-8")
  else h

/-! ## The pushes -/

/-- What `push_not_found` pushes. -/
def notFoundPushes (uri : Str) : List Str :=
  [str "<html><head><title>404 Not Found</title></head>\n",
    str "<body><h1>Not Found</h1>\n",
    str "<p>The requested URL " ++ htmlescape uri ++ str " was not found on this server.</p>",
    str "</body></html>\n"]

/-- What `push_error` pushes. -/
def errorPushes (error : ℤ) (reason : Str) : List Str :=
  [str "<html><head><title>" ++ stdToString error ++ str " " ++ reason ++ str "</title></head>\n",
    str "<body>\n<h1>Method Not Implemented</h1>\n",
    str "<p>Invalid method in request</p>\n",
    str "</body></html>\n"]

/-- What `set_response` pushes onto the body. -/
def contentPushes (uri : Str) (code : HttpCode) (reason : Str) : Option Str → List Str
  | some c => [c]
  | none =>
      if code = httpOk then []
      else if code = httpNotfound then notFoundPushes uri
      else if code = httpNocontent then []
      else errorPushes code reason

/-- What `send_to` pushes onto a buffer. -/
def Request.sendPushes (r : Request) : List Str :=
  r.firstline :: ((r.headers.toList.map headerLine).filter fun line => line ≠ []) ++
    crlf :: if r.buf.length > 0 then [r.buf] else []

/-- The pushes of `set_response` make the body. -/
theorem flatten_contentPushes (uri : Str) (code : HttpCode) (reason : Str) (content : Option Str) :
    (contentPushes uri code reason content).flatten = responseBody uri code reason content := by
  cases content with
  | some c => simp [contentPushes, responseBody]
  | none =>
      unfold contentPushes responseBody
      simp only [notFoundPushes, errorPushes, Request.notFoundPage, Request.errorPage]
      split
      · rfl
      · split
        · simp
        · split
          · rfl
          · simp

/-- The pushes of `send_to` make the bytes that are sent. -/
theorem Request.flatten_sendPushes (r : Request) : r.sendPushes.flatten = r.wire := by
  have hlines : ((r.headers.toList.map headerLine).filter fun line => line ≠ []).flatten =
      r.headers.toList.flatMap headerLine := by
    rw [List.flatten_filter_ne_nil, List.flatMap_def]
  rw [wire, sendTo_snd, sendPushes, List.flatten_append, List.flatten_cons, hlines, List.flatten_cons]
  by_cases hbuf : r.buf = []
  · simp [hbuf]
  · simp [List.length_pos_iff.mpr hbuf]

/-- A response makes the round trip: the pushes of `set_response` and `send_to` onto empty buffers
return, and whatever follows the response, a client reads it back and stops right behind it. -/
structure RoundTrips (uri : Str) (now : Tm) (code : HttpCode) (reason : Str) (content : Option Str) :
    Prop where
  built : TakesAll [] (contentPushes uri code reason content)
  sent : TakesAll [] (respond uri now code reason content).sendPushes
  readBack : ∀ rest, ∃ r', ReadsResponse ((respond uri now code reason content).wire ++ rest) r' rest ∧
    ReadsBack (respond uri now code reason content) r'

section Respond

variable (uri : Str) (now : Tm) (code : HttpCode) (reason : Str) (content : Option Str)

/-- What `set_response` has built. -/
theorem respond_eq :
    let r := respond uri now code reason content
    r.responseCode = some code ∧ r.responseLine = reason ∧
      r.buf = responseBody uri code reason content ∧
      r.headers = responseHeaders now (responseBody uri code reason content).length ∧
      r.firstline = Request.statusLine 1 (stdToString code) reason ++ crlf := by
  have hfirst : ∀ r : Request, r.major = 1 → r.minor = 1 → r.responseLine = reason →
      r.protocolText ++ str " " ++ stdToString code ++ str " " ++ r.responseLine ++ crlf =
        Request.statusLine 1 (stdToString code) reason ++ crlf := by
    intro r hmajor hminor hline
    simp [Request.protocolText, Request.statusLine, hmajor, hminor, hline, str]
  cases content with
  | some c => exact ⟨rfl, rfl, rfl, rfl, hfirst _ rfl rfl rfl⟩
  | none =>
      simp only [respond, Request.setResponse, Request.defaultContent, responseBody]
      split
      · exact ⟨rfl, rfl, rfl, rfl, hfirst _ rfl rfl rfl⟩
      · split
        · exact ⟨rfl, rfl, rfl, rfl, hfirst _ rfl rfl rfl⟩
        · split
          · exact ⟨rfl, rfl, rfl, rfl, hfirst _ rfl rfl rfl⟩
          · exact ⟨rfl, rfl, rfl, rfl, hfirst _ rfl rfl rfl⟩

/-- The bytes of a response. -/
theorem wire_respond : (respond uri now code reason content).wire =
    Request.statusLine 1 (stdToString code) reason ++ (crlf ++
      ((fieldsOf (responseHeaders now (responseBody uri code reason content).length)).flatMap
        Field.text ++ (crlf ++ responseBody uri code reason content))) := by
  obtain ⟨-, -, hbuf, hheaders, hfirst⟩ := respond_eq uri now code reason content
  rw [Request.wire, Request.sendTo_snd, hbuf, hheaders, hfirst, flatMap_headerLine]
  simp

end Respond

/-- Every entry of the header can be sent, and is not changed by trimming. -/
theorem responseHeaders_ok (now : Tm) (length : ℕ) :
    EachEntry (fun k v => (HeaderName k ∧ Plain v) ∧ NoEdgeSpace v) (responseHeaders now length) := by
  have hname : ∀ k ∈ [str "Date", str "Connection", str "Content-Length", str "Content-Type"],
      HeaderName k := by
    decide +kernel
  have hlength := And.intro (And.intro (hname (str "Content-Length") (by simp))
    (plain_stdToString length)) (noEdgeSpace_stdToString length)
  have hbase := (((eachEntry_empty fun k v => (HeaderName k ∧ Plain v) ∧ NoEdgeSpace v).insert
    ⟨⟨hname (str "Date") (by simp), plain_getDate now⟩, noEdgeSpace_getDate now⟩).insert
      (k := str "Connection") (v := str "keep-alive") ⟨⟨hname _ (by simp), by decide⟩, by decide⟩).insert
        hlength
  unfold responseHeaders
  simp only
  split
  · exact (hbase.insert hlength).insert ⟨⟨hname (str "Content-Type") (by simp), by decide⟩, by decide⟩
  · exact hbase

/-- The framing the header announces. -/
theorem responseHeaders_framing (now : Tm) (length : ℕ) :
    (responseHeaders now length)[str "Content-Length"]? = some (stdToString length) ∧
      (responseHeaders now length)[str "Transfer-Encoding"]? = none := by
  unfold responseHeaders
  simp only
  constructor <;> split
  · rw [Std.ExtTreeMap.getElem?_insert, if_neg (by decide), Std.ExtTreeMap.getElem?_insert_self]
  · rw [Std.ExtTreeMap.getElem?_insert_self]
  all_goals
    simp only [Std.ExtTreeMap.getElem?_insert]
    iterate rw [if_neg (by decide)]
    rfl

/-! ## What is read -/

/-- The header as the parser stores it. -/
def receivedHeaders (now : Tm) (length : ℕ) : Headers :=
  (fieldsOf (responseHeaders now length)).foldl Field.enter ∅

/-- The values that are stored are those that were sent. -/
theorem getD_receivedHeaders (now : Tm) (length : ℕ) (key : Str) :
    (receivedHeaders now length)[key]?.getD [] = (responseHeaders now length)[key]?.getD [] :=
  getD_foldl_fieldsOf (fun k v hv hne => (responseHeaders_ok now length k v hv hne).2) key

/-- The parser at the end of the header of a response. -/
def responseReader (now : Tm) (length : ℕ) (code : HttpCode) (reason : Str) : Request where
  headers := receivedHeaders now length
  status := .readingHeaders
  responseCode := some code
  responseLine := reason

/-- The first line and the header lead to the end of the header. -/
theorem parse_responseHeader (now : Tm) (length : ℕ) {code : HttpCode} (hcode : 0 ≤ code)
    (hle : code ≤ intMax) {reason : Str} (hreason : Plain reason) (rest : Str) :
    Request.parse {} (Request.statusLine 1 (stdToString code) reason ++ (crlf ++
      ((fieldsOf (responseHeaders now length)).flatMap Field.text ++ (crlf ++ rest)))) =
      (responseReader now length code reason).finishHeaders Request.parseBody rest := by
  have hstoi := stoi_stdToString hcode hle
  have hblank : (32 : UInt8) ∉ stdToString code := by
    obtain ⟨n, rfl⟩ := Int.eq_ofNat_of_zero_le hcode
    exact fun h => not_space_stdToString n 32 h (by decide)
  have hcast : httpCode code = code := by
    have hlt : intMax < 2 ^ 32 := by decide
    exact Int.emod_eq_of_lt hcode (lt_of_le_of_lt hle hlt)
  have hparse : ({} : Request).parseLine (Request.statusLine 1 (stdToString code) reason) =
      .ok (0, { responseCode := some code, responseLine := reason }) := by
    have := Request.parseResponseLine_eq (r := {}) (.inr rfl : (1 : ℤ) = 0 ∨ _) hblank hstoi reason
    rwa [hcast] at this
  have hline : Plain (Request.statusLine 1 (stdToString code) reason) :=
    Request.plain_statusLine (.inr rfl) (plain_stdToString code) hreason
  have hsend : Sendable (responseHeaders now length) :=
    fun k v hv hne => (responseHeaders_ok now length k v hv hne).1
  exact Request.parse_opening (by simp [Request.statusLine]) hline rfl hparse hsend.wellFormed rest

/-- Whether a body is looked for depends on the code. -/
theorem bodyless_responseReader (now : Tm) (length : ℕ) (code : HttpCode) (reason : Str) :
    (responseReader now length code reason).bodyless = .ok (decide (Bodyless code)) := rfl

/-- **What the parser makes of a response** and the bytes behind it. -/
theorem parse_respond (uri : Str) (now : Tm) {code : HttpCode} (hcode : 0 ≤ code)
    (hle : code ≤ intMax) {reason : Str} (hreason : Plain reason) (content : Option Str)
    (hfit : (responseBody uri code reason content).length ≤ 2 ^ 30) (rest : Str) :
    ∃ r' : Request, (∀ key, r'.getHeader key = (respond uri now code reason content).getHeader key) ∧
      r'.responseCode = some code ∧ r'.responseLine = reason ∧
      Request.parse {} ((respond uri now code reason content).wire ++ rest) =
        if Bodyless code then .ok (.allread, { r' with buf := [] },
          responseBody uri code reason content ++ rest)
        else .ok (.allread, { r' with buf := responseBody uri code reason content }, rest) := by
  obtain ⟨-, -, -, hheaders, -⟩ := respond_eq uri now code reason content
  rw [wire_respond]
  generalize responseBody uri code reason content = body at hheaders hfit ⊢
  simp only [List.append_assoc]
  rw [parse_responseHeader now body.length hcode hle hreason]
  have hbodyless := bodyless_responseReader now body.length code reason
  have hheader : ∀ key, (receivedHeaders now body.length)[key]?.getD [] =
      (respond uri now code reason content).getHeader key := by
    intro key
    rw [getD_receivedHeaders, Request.getHeader, hheaders]
  by_cases hb : Bodyless code
  · refine ⟨responseReader now body.length code reason, hheader, rfl, rfl, ?_⟩
    rw [if_pos hb, Request.finishHeaders_bodyless (by rw [hbodyless, decide_eq_true hb])]
    rfl
  · obtain ⟨hlength, hte⟩ := responseHeaders_framing now body.length
    have hlong : (body.length : ℤ) ≤ longMax := by
      simp only [longMax]
      omega
    refine ⟨{ responseReader now body.length code reason with
      headers := Request.lookedUp (receivedHeaders now body.length)
      status := .readingBody, ntoread := body.length }, fun key => ?_, rfl, rfl, ?_⟩
    · rw [← hheader key]
      simp only [Request.getHeader, Request.lookedUp, Request.getD_subscript]
    · have hte' : (receivedHeaders now body.length)[str "Transfer-Encoding"]?.getD [] ≠
          str "chunked" := by
        rw [getD_receivedHeaders, hte]
        decide
      have hlength' : (receivedHeaders now body.length)[str "Content-Length"]?.getD [] =
          stdToString body.length := by
        rw [getD_receivedHeaders, hlength]
        rfl
      have hbody := Request.parseBody_length
        (r := { responseReader now body.length code reason with status := .readingBody }) hte' rfl
        hlength' (stdToString_ne_nil _) (stol_stdToString hlong) (body ++ rest)
      rw [if_neg hb, Request.finishHeaders_body (by rw [hbodyless, decide_eq_false hb]) rfl, hbody,
        if_pos (by simp), List.take_left, List.drop_left]
      rfl

/-- The page of an error is not empty. -/
theorem errorPage_ne_nil (error : ℤ) (reason : Str) : Request.errorPage error reason ≠ [] := by
  simp [Request.errorPage, str]

/-- Builder and parser agree exactly when a code without body comes with an empty body. -/
theorem bodyAgrees_iff (uri : Str) (code : HttpCode) (reason : Str) (content : Option Str) :
    BodyAgrees code content ↔ (Bodyless code → responseBody uri code reason content = []) := by
  refine forall_congr' fun hb => ?_
  cases content with
  | some c => simp [responseBody]
  | none =>
      have hok : code ≠ httpOk := by
        rintro rfl
        exact absurd hb (by decide)
      have hnotfound : code ≠ httpNotfound := by
        rintro rfl
        exact absurd hb (by decide)
      by_cases hno : code = httpNocontent
      · simp [responseBody, hno, httpNocontent, httpOk, httpNotfound]
      · simp [responseBody, hok, hnotfound, hno, errorPage_ne_nil]

/-- The body is part of what is sent. -/
theorem responseBody_length_le (uri : Str) (now : Tm) (code : HttpCode) (reason : Str)
    (content : Option Str) : (responseBody uri code reason content).length ≤
      (respond uri now code reason content).wire.length := by
  rw [wire_respond]
  simp only [List.length_append]
  omega

/-- **Responses are self-delimiting** exactly where builder and parser agree on the body, and header
and body fit a buffer. -/
theorem respond_roundTrips_iff (uri : Str) (now : Tm) {code : HttpCode} (hcode : 0 ≤ code)
    (hle : code ≤ intMax) {reason : Str} (hreason : Plain reason) (content : Option Str) :
    RoundTrips uri now code reason content ↔ BodyAgrees code content ∧
      (respond uri now code reason content).wire.length ≤ 2 ^ 30 := by
  obtain ⟨hrcode, hrline, hrbuf, -, -⟩ := respond_eq uri now code reason content
  have hbody := responseBody_length_le uri now code reason content
  rw [bodyAgrees_iff uri code reason content]
  constructor
  · rintro ⟨-, hsent, hread⟩
    -- the pushes of `send_to` bound the whole, and with it the body
    rw [takesAll_iff (Nat.zero_le _), Request.flatten_sendPushes, List.length_nil, Nat.zero_add] at hsent
    refine ⟨fun hb => ?_, hsent⟩
    obtain ⟨r, ⟨-, hr⟩, -⟩ := hread []
    obtain ⟨r', -, -, -, hr'⟩ :=
      parse_respond uri now hcode hle hreason content (hbody.trans hsent) []
    rw [hr', if_pos hb] at hr
    simp only [Except.ok.injEq, Prod.mk.injEq, List.append_nil] at hr
    exact hr.2.2
  · rintro ⟨hagrees, hroom⟩
    have hfit := hbody.trans hroom
    refine ⟨?_, ?_, fun rest => ?_⟩
    · rwa [takesAll_iff (Nat.zero_le _), flatten_contentPushes, List.length_nil, Nat.zero_add]
    · rwa [takesAll_iff (Nat.zero_le _), Request.flatten_sendPushes, List.length_nil, Nat.zero_add]
    · obtain ⟨r', hheader, hcode', hline', hr'⟩ :=
        parse_respond uri now hcode hle hreason content hfit rest
      have hparse : Request.parse {} ((respond uri now code reason content).wire ++ rest) =
          .ok (.allread, { r' with buf := responseBody uri code reason content }, rest) := by
        by_cases hb : Bodyless code
        · rw [hr', if_pos hb, hagrees hb]
          rfl
        · rw [hr', if_neg hb]
      exact ⟨_, .of_parse hparse hfit, hcode'.trans hrcode.symm, hline'.trans hrline.symm, hheader,
        hrbuf.symm⟩

/-- The page of a missing file is read back. -/
theorem respond_roundTrips_notFound :
    RoundTrips (str "/a") ⟨0, 0, 0, 1, 0, 2024, 1⟩ httpNotfound (str "NOT FOUND") none :=
  (respond_roundTrips_iff (str "/a") ⟨0, 0, 0, 1, 0, 2024, 1⟩ (by decide) (by decide) (by decide)
    none).mpr ⟨fun h => absurd h (by decide), by decide +kernel⟩

/-- The page made up for a response that is not modified is left over. -/
theorem not_roundTrips_notModified :
    ¬RoundTrips [] ⟨0, 0, 0, 1, 0, 2024, 1⟩ httpNotmodified (str "Not Modified") none := by
  intro h
  obtain ⟨r, ⟨-, hparse⟩, -⟩ := h.readBack []
  have hleft : (Request.parse {} ((respond [] ⟨0, 0, 0, 1, 0, 2024, 1⟩ httpNotmodified
      (str "Not Modified") none).wire ++ [])).toOption.map (fun p => p.2.2) =
        some (Request.errorPage httpNotmodified (str "Not Modified")) := by
    decide +kernel
  rw [hparse] at hleft
  exact errorPage_ne_nil _ _ (Option.some.inj hleft).symm

end Libio
