import Libio.Http.ChunkedTransfer
import Libio.Http.Pipeline
import Libio.Http.Responses

/-! # An exchange

Requests go from a client to a connection and the replies go back, with `request` at both ends: what
`set_request` and `send_to` write is what `parse_request` dispatches, and what the handlers send is
what `parse` reads, message by message. `exchange` is about whole pipelines, with any handlers that
answer each request with one reply, plain or in chunks. -/

namespace Libio

/-- One reply of a handler: `send_reply`, with a code and a content that the parser of a client
agrees with; or a chunked one, whose chunks are not empty. -/
inductive Reply
  | page (now : Tm) (code : HttpCode) (reason content : Str) (code_pos : 0 ≤ code) (code_le : code ≤ intMax)
      (reason_ok : Plain reason) (agrees : BodyAgrees code (if content = [] then none else some content))
  | chunked (now : Tm) (reason : Str) (chunks : List Str) (reason_ok : Plain reason)
      (chunk_ok : ∀ c ∈ chunks, c ≠ [])

namespace Reply

/-- The calls of the handler. -/
def ops : Reply → List SendOp
  | page now code reason content .. => [.reply now code reason content]
  | chunked now reason chunks .. => .chunkStart now httpOk reason :: (chunks.map .chunk ++ [.chunkEnd])

def code : Reply → HttpCode
  | page _ code .. => code
  | chunked .. => httpOk

def reason : Reply → Str
  | page _ _ reason .. => reason
  | chunked _ reason .. => reason

/-- The body that a client reads. Of a reply in chunks this is not what was sent: the parser keeps the
line end behind each of them. -/
def bodyRead : Reply → Str
  | page _ code reason content .. => responseBody [] code reason (if content = [] then none else some content)
  | chunked _ _ chunks .. => chunks.flatMap fun c => c ++ crlf

end Reply

/-- A client has read a response with this code, reason and body. -/
structure ReadAs (code : HttpCode) (reason body : Str) (r : Request) : Prop where
  code : r.responseCode = some code
  reason : r.responseLine = reason
  body : r.buf = body

/-- Calls of `parse`, each with a fresh object, read the responses `rs` from the buffer and leave
`rest`. -/
def ReadsAll : Str → List Request → Str → Prop
  | buf, [], rest => buf = rest
  | buf, r :: rs, rest =>
      ∃ buf', ReadsResponse buf r buf' ∧ ReadsAll buf' rs rest

/-- What a client reads in answer to a request that is dispatched at length `n` of the trace: the
reply of the handler, or the page of a missing file. -/
def Answered (server : HttpServer) (env : Env) (n : ℕ) (req r : Request) : Prop :=
  match server.route req.uri with
  | .notFound => ReadAs httpNotfound (str "NOT FOUND") (Request.notFoundPage req.uri) r
  | route => ∃ reply : Reply, (env.answer n route req).now = reply.ops ∧
      ReadAs reply.code reply.reason reply.bodyRead r

/-- The responses that answer requests which are dispatched one after the other. -/
def AnsweredInOrder (server : HttpServer) (env : Env) : ℕ → List Request → List Request → Prop
  | _, [], rs => rs = []
  | n, req :: reqs, rs => ∃ r rs', rs = r :: rs' ∧ Answered server env n req r ∧
      AnsweredInOrder server env (n + (Session.handled server env n req).length) reqs rs'

/-- Handlers that answer each request with one reply before they return. -/
def RepliesOnce (env : Env) : Prop :=
  ∀ n route req, ∃ reply : Reply, (env.answer n route req).now = reply.ops

/-! ## One response -/

/-- A response on whose body builder and parser agree is read back. -/
theorem parse_agreed (uri : Str) (now : Tm) {code : HttpCode} (hcode : 0 ≤ code) (hle : code ≤ intMax)
    {reason : Str} (hreason : Plain reason) {content : Option Str} (hagrees : BodyAgrees code content)
    (hroom : (respond uri now code reason content).wire.length ≤ 2 ^ 30) (rest : Str) :
    ∃ r, ReadsResponse ((respond uri now code reason content).wire ++ rest) r rest ∧
      ReadAs code reason (responseBody uri code reason content) r := by
  have hfit := (responseBody_length_le uri now code reason content).trans hroom
  obtain ⟨r, -, hrcode, hrline, hparse⟩ := parse_respond uri now hcode hle hreason content hfit rest
  have hempty := (bodyAgrees_iff uri code reason content).mp hagrees
  by_cases hb : Bodyless code
  · refine ⟨{ r with buf := [] }, .of_parse ?_ (Nat.zero_le _), hrcode, hrline, (hempty hb).symm⟩
    rw [hparse, if_pos hb, hempty hb, List.nil_append]
  · refine ⟨{ r with buf := responseBody uri code reason content }, .of_parse ?_ hfit, hrcode, hrline, rfl⟩
    rw [hparse, if_neg hb]

/-- A response with any header that announces the length of its body is read back, header and all. -/
theorem parse_framed {h : Headers}
    (hok : EachEntry (fun k v => (HeaderName k ∧ Plain v) ∧ NoEdgeSpace v) h) {code : HttpCode}
    (hcode : 0 ≤ code) (hle : code ≤ intMax) (hbody : ¬Bodyless code) {reason : Str} (hreason : Plain reason)
    {body : Str} (hfit : body.length ≤ 2 ^ 30)
    (hlength : h[str "Content-Length"]? = some (stdToString body.length))
    (hte : h[str "Transfer-Encoding"]? = none) (rest : Str) :
    ∃ r, ReadsResponse (Request.statusLine 1 (stdToString code) reason ++ (crlf ++
        ((fieldsOf h).flatMap Field.text ++ (crlf ++ (body ++ rest))))) r rest ∧
      ReadAs code reason body r ∧ ∀ key, r.getHeader key = h[key]?.getD [] := by
  have hstoi := stoi_stdToString hcode hle
  have hblank : (32 : UInt8) ∉ stdToString code := by
    obtain ⟨n, rfl⟩ := Int.eq_ofNat_of_zero_le hcode
    exact fun hin => not_space_stdToString n 32 hin (by decide)
  have hcast : httpCode code = code := by
    have hlt : intMax < 2 ^ 32 := by decide
    exact Int.emod_eq_of_lt hcode (lt_of_le_of_lt hle hlt)
  have hfirst : ({} : Request).parseLine (Request.statusLine 1 (stdToString code) reason) =
      .ok (0, { responseCode := some code, responseLine := reason }) := by
    have := Request.parseResponseLine_eq (r := {}) (.inr rfl : (1 : ℤ) = 0 ∨ _) hblank hstoi reason
    rwa [hcast] at this
  have hline : Plain (Request.statusLine 1 (stdToString code) reason) :=
    Request.plain_statusLine (.inr rfl) (plain_stdToString code) hreason
  have hsend : Sendable h := fun k v hv hne => (hok k v hv hne).1
  have hparse := Request.parse_opening (by simp [Request.statusLine]) hline rfl hfirst hsend.wellFormed
    (body ++ rest)
  -- the header as it is stored has the same values
  have hget : ∀ key, ((fieldsOf h).foldl Field.enter ∅)[key]?.getD [] = h[key]?.getD [] :=
    getD_foldl_fieldsOf fun k v hv hne => (hok k v hv hne).2
  generalize hstored : (fieldsOf h).foldl Field.enter ∅ = stored at hparse hget
  have hlong : (body.length : ℤ) ≤ longMax := by
    simp only [longMax]
    omega
  have hte' : stored[str "Transfer-Encoding"]?.getD [] ≠ str "chunked" := by
    rw [hget, hte]
    decide
  have hlength' : stored[str "Content-Length"]?.getD [] = stdToString body.length := by
    rw [hget, hlength]
    rfl
  have hread := Request.parseBody_length
    (r := { headers := stored, status := .readingBody, responseCode := some code, responseLine := reason })
    hte' rfl hlength' (stdToString_ne_nil _) (stol_stdToString hlong) (body ++ rest)
  have hbodyless : Request.bodyless
      { headers := stored
        status := .readingHeaders
        responseCode := some code
        responseLine := reason } = .ok false := by
    show Except.ok (decide (Bodyless code)) = _
    rw [decide_eq_false hbody]
  rw [Request.finishHeaders_body hbodyless rfl, hread, if_pos (by simp), List.take_left,
    List.drop_left] at hparse
  refine ⟨_, .of_parse hparse hfit, ⟨rfl, rfl, rfl⟩, fun key => ?_⟩
  rw [← hget key]
  simp only [Request.getHeader, Request.lookedUp, Request.getD_subscript]

/-- The chunks of a reply are read one after the other, each with its line end. -/
theorem readChunks_chunks {chunks : List Str}
    (hchunks : ∀ c ∈ chunks, c ≠ [] ∧ (c.length : ℤ) ≤ longMax) {r : Request} (hr : InChunks r)
    (rest : Str) : r.readChunks (chunks.flatMap chunkText ++ (lastChunk ++ rest)) =
      .ok (.allread, { r with
        buf := r.buf ++ chunks.flatMap fun c => c ++ crlf
        ntoread := 0
        status := .readingTrailer }, rest) := by
  induction chunks generalizing r with
  | nil => simpa using readChunks_lastChunk hr rest
  | cons c chunks ih =>
      obtain ⟨hne, hlen⟩ := hchunks c (by simp)
      have hnext : InChunks { r with buf := r.buf ++ (c ++ crlf), ntoread := -1 } :=
        ⟨hr.status, hr.bodyless, show (-1 : ℤ) < 0 by decide⟩
      rw [List.flatMap_cons, List.append_assoc, readChunks_chunkText hr hne hlen,
        ih (fun c' hc' => hchunks c' (by simp [hc'])) hnext]
      simp

/-- The bytes of a chunked reply. -/
theorem written_chunked (now : Tm) (reason : Str) (chunks : List Str) :
    written (eventsOf (.chunkStart now httpOk reason :: (chunks.map .chunk ++ [.chunkEnd]))) =
      Request.statusLine 1 (stdToString 200) reason ++ (crlf ++
        ((fieldsOf (chunkedHeaders now)).flatMap Field.text ++ (crlf ++
          (chunks.flatMap chunkText ++ lastChunk)))) := by
  have hsent := (Session.appends_foldl_send (.sole 1 [])
    (.chunkStart now httpOk reason :: (chunks.map .chunk ++ [.chunkEnd]))).conn
  have hreply : (SendOp.chunkStart now httpOk reason :: (chunks.map SendOp.chunk ++ [.chunkEnd])).foldl
      Session.send (.sole 1 []) = (Session.sole 1 []).chunkedReply now reason chunks := by
    rw [List.foldl_cons, List.foldl_append, List.foldl_map]
    rfl
  have hwrite := congrArg HttpConnection.writeBuffer hsent
  rw [hreply, chunkedReply_writeBuffer] at hwrite
  exact (List.append_cancel_left hwrite).symm

/-- A chunk is part of what is sent for the chunks, with its line end. -/
theorem length_chunks_le (chunks : List Str) : (chunks.flatMap fun c => c ++ crlf).length ≤
    (chunks.flatMap chunkText).length ∧ ∀ c ∈ chunks, c.length ≤ (chunks.flatMap chunkText).length := by
  induction chunks with
  | nil => simp
  | cons c chunks ih =>
      obtain ⟨hall, heach⟩ := ih
      have hc : (c ++ crlf).length ≤ (chunkText c).length := by
        simp only [chunkText, List.length_append]
        omega
      rw [List.length_append] at hc
      simp only [List.flatMap_cons, List.length_append, List.mem_cons, forall_eq_or_imp]
      refine ⟨by omega, by omega, fun c' hc' => ?_⟩
      have := heach c' hc'
      omega

/-- **A reply is read back**, and nothing behind it is touched. -/
theorem parse_reply (reply : Reply) (hroom : (written (eventsOf reply.ops)).length ≤ 2 ^ 30)
    (rest : Str) : ∃ r, ReadsResponse (written (eventsOf reply.ops) ++ rest) r rest ∧
      ReadAs reply.code reply.reason reply.bodyRead r := by
  cases reply with
  | page now code reason content hcode hle hreason hagrees =>
      have hwire : written (eventsOf [.reply now code reason content]) =
          (respond [] now code reason (if content = [] then none else some content)).wire :=
        written_appended _
      obtain ⟨r, hparse, hread⟩ := parse_agreed [] now hcode hle hreason hagrees
        ((congrArg List.length hwire).symm.trans_le hroom) rest
      exact ⟨r, Eq.subst (motive := fun w => ReadsResponse (w ++ rest) r rest) hwire.symm hparse, hread⟩
  | chunked now reason chunks hreason hchunks =>
      have hte : ((fieldsOf (chunkedHeaders now)).foldl Field.enter ∅)[str "Transfer-Encoding"]? =
          some (str "chunked") := by
        rw [getElem?_foldl_fieldsOf, chunkedHeaders, Std.ExtTreeMap.getElem?_insert_self]
        decide
      -- the chunks are part of what is written
      obtain ⟨hall, heach⟩ := length_chunks_le chunks
      have hsent : (chunks.flatMap chunkText).length ≤ 2 ^ 30 := by
        refine le_trans ?_ hroom
        rw [Reply.ops, written_chunked]
        simp only [List.length_append]
        omega
      have hsizes : ∀ c ∈ chunks, c ≠ [] ∧ (c.length : ℤ) ≤ longMax := by
        intro c hc
        have := heach c hc
        simp only [longMax]
        exact ⟨hchunks c hc, by omega⟩
      have hread := readChunks_chunks hsizes (inChunks_chunkReader
        ((fieldsOf (chunkedHeaders now)).foldl Field.enter ∅) reason) rest
      have hparse := parse_chunkedHeader hreason (sendable_chunkedHeaders now).wellFormed hte
        (chunks.flatMap chunkText ++ (lastChunk ++ rest))
      have hwire : written (eventsOf (.chunkStart now httpOk reason :: (chunks.map .chunk ++ [.chunkEnd]))) ++
          rest = Request.statusLine 1 (stdToString 200) reason ++ (crlf ++
            ((fieldsOf (chunkedHeaders now)).flatMap Field.text ++ (crlf ++
              (chunks.flatMap chunkText ++ (lastChunk ++ rest))))) := by
        rw [written_chunked]
        simp only [List.append_assoc]
      rw [hread, ← hwire] at hparse
      exact ⟨_, .of_parse hparse (hall.trans hsent), rfl, rfl, rfl⟩

/-! ## The exchange -/

/-- **What is appended for a request** is one response to it. -/
theorem parse_handled {server : HttpServer} {env : Env} (henv : RepliesOnce env) (n : ℕ) {req : Request}
    (hclose : req.getHeader (str "Connection") ≠ str "close")
    (hroom : (written (Session.handled server env n req)).length ≤ 2 ^ 30) (rest : Str) :
    ∃ r, ReadsResponse (written (Session.handled server env n req) ++ rest) r rest ∧
      Answered server env n req r := by
  -- whatever the route of a handler, its reply is all that is appended
  have hhandler : ∀ route, (written (.dispatched route req ::
      eventsOf (env.answer n route req).now)).length ≤ 2 ^ 30 → ∃ r, ReadsResponse (written
        (.dispatched route req :: eventsOf (env.answer n route req).now) ++ rest) r rest ∧
        ∃ reply : Reply, (env.answer n route req).now = reply.ops ∧
          ReadAs reply.code reply.reason reply.bodyRead r := by
    intro route hsent
    obtain ⟨reply, hreply⟩ := henv n route req
    rw [written_dispatched, hreply] at hsent ⊢
    obtain ⟨r, hparse, hread⟩ := parse_reply reply hsent rest
    exact ⟨r, hparse, reply, rfl, hread⟩
  unfold Session.handled at hroom ⊢
  unfold Answered
  cases hroute : server.route req.uri with
  | notFound =>
      have hpage : responseBody req.uri httpNotfound (str "NOT FOUND") none = Request.notFoundPage req.uri :=
        rfl
      have hagrees : BodyAgrees httpNotfound none := fun hb => absurd hb (by decide)
      rw [hroute] at hroom
      simp only [written_dispatched, written_appended] at hroom ⊢
      rw [Session.notFoundResponse, if_neg hclose] at hroom ⊢
      obtain ⟨r, hparse, hread⟩ := parse_agreed req.uri (env.clock n) (by decide) (by decide)
        (by decide +kernel : Plain (str "NOT FOUND")) hagrees hroom rest
      exact ⟨r, hparse, hread⟩
  | handler key | pattern key | general =>
      rw [hroute] at hroom
      exact hhandler _ hroom

/-- What is appended for requests one after the other is read one after the other. -/
theorem readsAll_served {server : HttpServer} {env : Env} (henv : RepliesOnce env) (n : ℕ)
    {reqs : List Request} (hclose : ∀ req ∈ reqs, req.getHeader (str "Connection") ≠ str "close")
    (hroom : (written (served server env n reqs)).length ≤ 2 ^ 30) :
    ∃ rs, ReadsAll (written (served server env n reqs)) rs [] ∧ AnsweredInOrder server env n reqs rs := by
  induction reqs generalizing n with
  | nil => exact ⟨[], rfl, rfl⟩
  | cons req reqs ih =>
      simp only [served, written_append, List.length_append] at hroom ⊢
      obtain ⟨rs, hreads, hanswered⟩ := ih (n + (Session.handled server env n req).length)
        (fun req' hreq' => hclose req' (by simp [hreq'])) (by omega)
      have hone : (written (Session.handled server env n req)).length ≤ 2 ^ 30 := by omega
      obtain ⟨r, hparse, hr⟩ := parse_handled henv n (hclose req (by simp)) hone
        (written (served server env (n + (Session.handled server env n req).length) reqs))
      exact ⟨r :: rs, ⟨_, hparse, hreads⟩, r, rs, rfl, hr, hanswered⟩

namespace RequestSpec

variable (spec : RequestSpec)

/-- A request that is built with `set_request` does not ask for the connection to be closed. -/
theorem getHeader_connection : spec.build.getHeader (str "Connection") = [] := by
  rw [Request.getHeader, build_headers, getElem?_headers spec (by decide), baseHeaders]
  split
  · rw [Std.ExtTreeMap.getElem?_insert, if_neg (by decide), Std.ExtTreeMap.getElem?_insert,
      if_neg (by decide)]
    rfl
  · rw [Std.ExtTreeMap.getElem?_insert, if_neg (by decide)]
    rfl

end RequestSpec

/-- Requests are at least one byte each. -/
theorem length_le_wires (specs : List RequestSpec) :
    specs.length ≤ (specs.flatMap fun spec => spec.build.wire).length := by
  induction specs with
  | nil => exact Nat.le_refl 0
  | cons spec specs ih =>
      have hpos : 0 < spec.build.wire.length := by
        rw [spec.wire_build]
        simp only [List.length_append, crlf, List.length_cons]
        omega
      rw [List.flatMap_cons, List.length_append, List.length_cons]
      omega

/-- A pipeline is dispatched by one call of `parse_request`, and what is in the write buffer behind it
are the answers. -/
theorem parseRequest_sent (specs : List RequestSpec) (server : HttpServer) (env : Env) {s : Session}
    (hqueue : s.conn.requests = []) (hwrite : s.conn.writeBuffer = [])
    (hbuf : s.conn.readBuffer = specs.flatMap fun spec => spec.build.wire) :
    ∃ s' reqs, s.parseRequest server env = .ok s' ∧ List.Forall₂ RequestSpec.Delivers specs reqs ∧
      s'.conn.writeBuffer = written (served server env s.trace.length reqs) := by
  cases specs with
  | nil =>
      refine ⟨if s.conn.status = .connected then s.addRead else s, [], ?_, .nil, ?_⟩
      · exact if_pos hbuf
      · split <;> exact hwrite
  | cons spec specs =>
      have hpos := (Nat.succ_pos _).trans_le (length_le_wires (spec :: specs))
      rw [← hbuf] at hpos
      obtain ⟨s', reqs, hloop, hdelivers, -, hsent, -⟩ :=
        @Session.parseLoop_pipeline s server env (spec :: specs) _
          (hbuf ▸ (length_le_wires (spec :: specs)).trans (Nat.le_add_right _ _)) hqueue hbuf
      refine ⟨s', reqs, ?_, hdelivers, by rw [hsent, hwrite, List.nil_append]⟩
      rw [Session.parseRequest, if_neg (List.length_pos_iff.mp hpos)]
      exact hloop

/-- **An exchange**: requests that a client has built and sent one after the other are dispatched in
order, as they were meant, by one call of `parse_request`; and if the handlers answer each request
with one reply, and the write buffer has room for all of them, the client reads exactly the replies
from it, in the same order, and the page of a missing file where no handler is found. -/
theorem exchange (specs : List RequestSpec) (server : HttpServer) (env : Env) {s : Session}
    (hqueue : s.conn.requests = []) (hwrite : s.conn.writeBuffer = [])
    (hbuf : s.conn.readBuffer = specs.flatMap fun spec => spec.build.wire) (henv : RepliesOnce env)
    (hroom : ∀ s', s.parseRequest server env = .ok s' → s'.conn.writeBuffer.length ≤ 2 ^ 30) :
    ∃ s' reqs rs, s.parseRequest server env = .ok s' ∧ List.Forall₂ RequestSpec.Delivers specs reqs ∧
      ReadsAll s'.conn.writeBuffer rs [] ∧ AnsweredInOrder server env s.trace.length reqs rs := by
  obtain ⟨s', reqs, hparse, hdelivers, hsent⟩ := parseRequest_sent specs server env hqueue hwrite hbuf
  have hclose : ∀ req ∈ reqs, req.getHeader (str "Connection") ≠ str "close" := by
    intro req hreq
    -- each request that is dispatched was built from one of the list
    obtain ⟨spec, hspec, hdel⟩ : ∃ spec ∈ specs, spec.Delivers req := by
      clear hbuf hparse hsent
      induction hdelivers with
      | nil => cases hreq
      | @cons spec req' specs reqs hdel _ ih =>
          rcases List.mem_cons.mp hreq with rfl | hreq
          · exact ⟨spec, by simp, hdel⟩
          · obtain ⟨spec', hspec', hdel'⟩ := ih hreq
            exact ⟨spec', by simp [hspec'], hdel'⟩
    rw [hdel.header, spec.getHeader_connection]
    decide
  obtain ⟨rs, hreads, hanswered⟩ := readsAll_served henv s.trace.length hclose (hsent ▸ hroom s' hparse)
  exact ⟨s', reqs, rs, hparse, hdelivers, hsent ▸ hreads, hanswered⟩

/-- A reply in two chunks. -/
def splitReply : Reply := .chunked newYear (str "OK") [str "fun", str "ny"] (by decide) (by decide)

/-- Handlers that all send this reply. -/
def splitEnv : Env where
  answer _ _ _ := { now := splitReply.ops }
  clock _ := newYear

/-- A GET for which there is no handler, and a POST that is answered in chunks. -/
theorem exchange_pageAndChunks : ∃ s' reqs rs,
    (Session.sole 5 ([sampleGet, samplePost].flatMap fun spec => spec.build.wire)).parseRequest
      ⟨[str "/post"], false⟩ splitEnv = .ok s' ∧
    List.Forall₂ RequestSpec.Delivers [sampleGet, samplePost] reqs ∧
    ReadsAll s'.conn.writeBuffer rs [] ∧ AnsweredInOrder ⟨[str "/post"], false⟩ splitEnv 0 reqs rs := by
  have hlength : ((Session.sole 5 ([sampleGet, samplePost].flatMap fun spec => spec.build.wire)).parseRequest
      ⟨[str "/post"], false⟩ splitEnv).toOption.all
        fun s' => s'.conn.writeBuffer.length ≤ 2 ^ 30 := by
    decide +kernel
  refine exchange [sampleGet, samplePost] ⟨[str "/post"], false⟩ splitEnv rfl rfl rfl
    (fun _ _ _ => ⟨splitReply, rfl⟩) fun s' hs' => ?_
  rw [hs'] at hlength
  exact of_decide_eq_true hlength

end Libio
