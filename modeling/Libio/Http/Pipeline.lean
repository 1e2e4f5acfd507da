import Libio.Http.Replies
import Libio.Http.Steps

/-! # Pipelined requests

Requests serialized one behind the other and read back by one call of `parse_request`. A
`RequestSpec` is what a client asks `set_request` and `set_header` for; `parse_wire` says that the
parser gets it back from the wire and stops right behind it, and `parseRequest_pipeline` that the
connection handles a whole pipeline of them. -/

namespace Libio

/-- The header fields that say how a message is framed and whether the connection is kept. -/
def controlFields : List Str :=
  [str "Connection", str "Content-Length", str "Transfer-Encoding"]

/-- A request a client can build: `set_request` with this type, target and content, for a protocol
version 1.0 or 1.1, followed by calls of `set_header`. Only a POST has content, and a content is
what a buffer can hold. -/
structure RequestSpec where
  type : RequestType
  target : Str
  minor : ℤ
  content : Str
  extra : List (Str × Str)
  minor_eq : minor = 0 ∨ minor = 1
  content_eq : type ≠ .post → content = []
  content_le : content.length ≤ 2 ^ 30
  target_ok : ∀ c ∈ target, c ≠ 32 ∧ c ≠ 37 ∧ c ≠ cr ∧ c ≠ lf ∧ c ≠ 0
  name_ok : ∀ kv ∈ extra, HeaderName kv.1 ∧ kv.1 ∉ controlFields
  value_ok : ∀ kv ∈ extra, kv.2 ≠ [] ∧ Plain kv.2 ∧ NoEdgeSpace kv.2

namespace RequestSpec

variable (spec : RequestSpec)

/-- The content as the argument of `set_request`: a request without content has no buffer. -/
def contentArg : Option Str := if spec.type = .post then some spec.content else none

/-- The request the client builds. -/
def build : Request :=
  spec.extra.foldl (fun r kv => r.setHeader kv.1 kv.2)
    ((Request.setProtocol {} 1 spec.minor).setRequest spec.type spec.target spec.contentArg)

/-- A request arrived as it was meant: same type, protocol, path, query, header values and body. -/
structure Delivers (req : Request) : Prop where
  type : req.type = some spec.type
  major : req.major = 1
  minor : req.minor = spec.minor
  uri : req.uri = pathOf spec.target
  query : req.query = queryOf spec.target
  header : ∀ key, req.getHeader key = spec.build.getHeader key
  body : req.buf = spec.content

/-! ## What is sent -/

/-- Calls of `set_header` one after the other enter their values. -/
theorem foldl_setHeader (extra : List (Str × Str)) (r : Request) :
    extra.foldl (fun r kv => r.setHeader kv.1 kv.2) r =
      { r with headers := extra.foldl (fun h kv => h.insert kv.1 kv.2) r.headers } := by
  induction extra generalizing r with
  | nil => rfl
  | cons kv extra ih =>
      rw [List.foldl_cons, ih]
      rfl

/-- The header map `set_request` makes. -/
def baseHeaders : Headers :=
  let h : Headers := (∅ : Headers).insert (str "Content-Type") (str "text/html; charset=utf-8")
  if spec.type = .post then h.insert (str "Content-Length") (stdToString spec.content.length) else h

/-- The header map of the request. -/
def headers : Headers := spec.extra.foldl (fun h kv => h.insert kv.1 kv.2) spec.baseHeaders

/-- The header of the request that is built. -/
theorem build_headers : spec.build.headers = spec.headers := by
  rw [build, foldl_setHeader, headers, baseHeaders, contentArg]
  cases spec.type <;> simp [Request.setRequest, Request.setProtocol]

/-- Its body. -/
theorem build_buf : spec.build.buf = spec.content := by
  rw [build, foldl_setHeader, contentArg]
  have h := spec.content_eq
  cases ht : spec.type <;> simp_all [Request.setRequest, Request.setProtocol]

/-- Its first line. -/
theorem build_firstline :
    spec.build.firstline = Request.requestLine spec.type spec.target spec.minor ++ crlf := by
  rw [build, foldl_setHeader]
  simp [Request.setRequest, Request.setProtocol, Request.requestLine, Request.protocolText, str]

/-- Every entry of the map can be sent, and is not changed by trimming. -/
theorem headers_ok :
    EachEntry (fun k v => (HeaderName k ∧ Plain v) ∧ NoEdgeSpace v) spec.headers := by
  have hname : ∀ k ∈ [str "Content-Type", str "Content-Length"], HeaderName k := by
    decide +kernel
  have hbase : EachEntry (fun k v => (HeaderName k ∧ Plain v) ∧ NoEdgeSpace v) spec.baseHeaders := by
    have htype := (eachEntry_empty fun k v => (HeaderName k ∧ Plain v) ∧ NoEdgeSpace v).insert
      (k := str "Content-Type") (v := str "text/html; charset=utf-8")
      ⟨⟨hname _ (by simp), by decide⟩, by decide⟩
    unfold baseHeaders
    simp only
    split
    · exact htype.insert ⟨⟨hname _ (by simp), plain_stdToString _⟩, noEdgeSpace_stdToString _⟩
    · exact htype
  suffices hs : ∀ (l : List (Str × Str)) (h : Headers), (∀ kv ∈ l, kv ∈ spec.extra) →
      EachEntry (fun k v => (HeaderName k ∧ Plain v) ∧ NoEdgeSpace v) h →
      EachEntry (fun k v => (HeaderName k ∧ Plain v) ∧ NoEdgeSpace v)
        (l.foldl (fun h kv => h.insert kv.1 kv.2) h) from hs spec.extra _ (fun _ h => h) hbase
  intro l
  induction l with
  | nil => exact fun h _ hh => hh
  | cons kv l ih =>
      intro h hl hh
      have hkv := hl kv (by simp)
      obtain ⟨-, hplain, hedge⟩ := spec.value_ok kv hkv
      exact ih _ (fun kv' h' => hl kv' (by simp [h']))
        (hh.insert ⟨⟨(spec.name_ok kv hkv).1, hplain⟩, hedge⟩)

/-- Entries under other names make no difference. -/
theorem getElem?_foldl_insert_of_ne {l : List (Str × Str)} {key : Str} (hkey : ∀ kv ∈ l, kv.1 ≠ key)
    (h : Headers) : (l.foldl (fun h kv => h.insert kv.1 kv.2) h)[key]? = h[key]? := by
  induction l generalizing h with
  | nil => rfl
  | cons kv l ih =>
      rw [List.foldl_cons, ih fun kv' hkv' => hkey kv' (by simp [hkv']),
        Std.ExtTreeMap.getElem?_insert]
      simp [hkey kv (by simp)]

/-- The extra fields leave the control fields alone. -/
theorem getElem?_headers {key : Str} (hkey : key ∈ controlFields) :
    spec.headers[key]? = spec.baseHeaders[key]? :=
  getElem?_foldl_insert_of_ne (fun kv hkv he => (spec.name_ok kv hkv).2 (he ▸ hkey)) _

/-- The header as the parser stores it. -/
def received : Headers := (fieldsOf spec.headers).foldl Field.enter ∅

/-- A value arrives as it was set. -/
theorem getD_received (key : Str) : spec.received[key]?.getD [] = spec.headers[key]?.getD [] :=
  getD_foldl_fieldsOf (fun k v hv hne => (spec.headers_ok k v hv hne).2) key

/-- The bytes of the request. -/
theorem wire_build : spec.build.wire =
    Request.requestLine spec.type spec.target spec.minor ++ (crlf ++
      ((fieldsOf spec.headers).flatMap Field.text ++ (crlf ++ spec.content))) := by
  rw [Request.wire, Request.sendTo_snd, build_firstline, build_buf, build_headers, flatMap_headerLine]
  simp

/-! ## What is read -/

/-- The target has no line end and no NUL. -/
theorem plain_target : Plain spec.target := fun c hc => (spec.target_ok c hc).2.2

/-- The path has no escape in it. -/
theorem stringFromUtf8_pathOf : stringFromUtf8 (pathOf spec.target) = .ok (pathOf spec.target) := by
  apply stringFromUtf8_literal
  intro h
  exact (spec.target_ok 37 ((List.takeWhile_sublist _).subset h)).2.1 rfl

/-- The request after its first line. -/
def afterFirstline : Request where
  kind := .request
  status := .readingHeaders
  type := some spec.type
  uri := pathOf spec.target
  query := queryOf spec.target
  minor := spec.minor

/-- The first line and the header lead to the end of the header. -/
theorem parse_header (rest : Str) :
    Request.parse { kind := .request } (Request.requestLine spec.type spec.target spec.minor ++
      (crlf ++ ((fieldsOf spec.headers).flatMap Field.text ++ (crlf ++ rest)))) =
      Request.finishHeaders Request.parseBody
        { spec.afterFirstline with headers := spec.received } rest := by
  have hparse : Request.parseLine { kind := .request }
      (Request.requestLine spec.type spec.target spec.minor) =
        .ok (0, { spec.afterFirstline with status := .readingFirstline }) :=
    Request.parseRequestLine_eq rfl spec.type (fun h => (spec.target_ok 32 h).1 rfl)
      spec.stringFromUtf8_pathOf spec.minor_eq
  have hsend : Sendable spec.headers := fun k v hv hne => (spec.headers_ok k v hv hne).1
  exact Request.parse_opening (by simp [Request.requestLine])
    (Request.plain_requestLine _ spec.plain_target spec.minor_eq) rfl hparse hsend.wellFormed rest

/-- **Decoding undoes encoding.** The parser reads a request back from the wire and stops right
behind it. -/
theorem parse_wire (rest : Str) :
    ∃ req, Request.parse { kind := .request } (spec.build.wire ++ rest) = .ok (.allread, req, rest) ∧
      spec.Delivers req := by
  have hget : ∀ key, spec.received[key]?.getD [] = spec.build.getHeader key := by
    intro key
    rw [spec.getD_received, Request.getHeader, spec.build_headers]
  by_cases hpost : spec.type = .post
  · -- a POST goes on with its body, whose length the header gives
    have hlen : spec.headers[str "Content-Length"]?.getD [] = stdToString spec.content.length := by
      rw [spec.getElem?_headers (by decide), baseHeaders]
      simp [hpost]
    have hte : spec.headers[str "Transfer-Encoding"]?.getD [] = [] := by
      rw [spec.getElem?_headers (by decide), baseHeaders]
      simp only [if_pos hpost]
      rw [Std.ExtTreeMap.getElem?_insert, if_neg (by decide), Std.ExtTreeMap.getElem?_insert,
        if_neg (by decide)]
      rfl
    have hle : (spec.content.length : ℤ) ≤ longMax := by
      have := spec.content_le
      simp only [longMax]
      omega
    refine ⟨{ spec.afterFirstline with
      headers := Request.lookedUp spec.received, status := .readingBody
      ntoread := spec.content.length, buf := spec.content }, ?_, ?_⟩
    · rw [wire_build]
      simp only [List.append_assoc]
      rw [parse_header, Request.finishHeaders_body (by simp [Request.bodyless, afterFirstline, hpost])
        rfl, Request.parseBody_length (by rw [spec.getD_received, hte]; decide) rfl
        (by rw [spec.getD_received, hlen]) (stdToString_ne_nil _) (stol_stdToString hle),
        if_pos (by simp), List.take_left, List.drop_left]
      rfl
    · refine ⟨rfl, rfl, rfl, rfl, rfl, fun key => ?_, rfl⟩
      rw [← hget key]
      simp only [Request.getHeader, Request.lookedUp, Request.getD_subscript]
  · refine ⟨{ spec.afterFirstline with headers := spec.received }, ?_, ?_⟩
    · rw [wire_build, spec.content_eq hpost]
      simp only [List.append_assoc, List.nil_append]
      rw [parse_header, Request.finishHeaders_bodyless]
      simp [Request.bodyless, afterFirstline, hpost]
    · exact ⟨rfl, rfl, rfl, rfl, rfl, hget, (spec.content_eq hpost).symm⟩

end RequestSpec

/-! ## A pipeline -/

/-- What handling requests one after the other appends, from a trace of length `n` on. -/
def served (server : HttpServer) (env : Env) : ℕ → List Request → List Event
  | _, [] => []
  | n, req :: reqs =>
      let evs := Session.handled server env n req
      evs ++ served server env (n + evs.length) reqs

/-- A handler's reply dispatches nothing. -/
theorem dispatchedIn_eventsOf (ops : List SendOp) : dispatchedIn (eventsOf ops) = [] := by
  induction ops with
  | nil => rfl
  | cons op ops ih =>
      have : eventsOf (op :: ops) = op.events ++ eventsOf ops := rfl
      rw [this, dispatchedIn_append, ih]
      cases op <;> rfl

/-- Handling a request dispatches exactly that request. -/
theorem dispatchedIn_handled (server : HttpServer) (env : Env) (n : ℕ) (req : Request) :
    dispatchedIn (Session.handled server env n req) = [req] := by
  have h : ∀ route, dispatchedIn (eventsOf (env.answer n route req).now) = [] :=
    fun route => dispatchedIn_eventsOf _
  unfold Session.handled
  simp only [dispatchedIn, List.filterMap_cons] at h ⊢
  cases server.route req.uri <;> simp [h]

/-- **Each request is dispatched once, in order.** -/
theorem dispatchedIn_served (server : HttpServer) (env : Env) (n : ℕ) (reqs : List Request) :
    dispatchedIn (served server env n reqs) = reqs := by
  induction reqs generalizing n with
  | nil => rfl
  | cons req reqs ih =>
      simp only [served]
      rw [dispatchedIn_append, dispatchedIn_handled, ih]
      rfl

namespace Session

variable {s : Session} {server : HttpServer} {env : Env}

/-- The state after a round of `parse_request` that read a whole request. -/
def afterRequest (s : Session) (server : HttpServer) (env : Env) (req : Request) (rest : Str) :
    Session :=
  (((s.ensureRequest.setParsed req rest).handleRequest server env req).popRequest).addWriteIfPending

/-- A round of the loop that reads a whole request of its own. -/
theorem parseLoop_allread (hqueue : s.conn.requests = []) (hbuf : s.conn.readBuffer ≠ [])
    {req : Request} {rest : Str}
    (hparse : Request.parse { kind := .request } s.conn.readBuffer = .ok (.allread, req, rest))
    (fuel : ℕ) :
    s.parseLoop server env (fuel + 1) =
      (s.afterRequest server env req rest).parseLoop server env fuel := by
  have hensure : s.ensureRequest =
      { s with conn := { s.conn with requests := [{ kind := .request }] } } := by
    rw [ensureRequest, if_pos hqueue]
  rw [parseLoop, if_neg hbuf, afterRequest, hensure]
  simp only [hparse, bind, Except.bind, act, if_true]

/-- What such a round leaves: the rest of the input, an empty queue, and the reply. -/
theorem afterRequest_spec (hqueue : s.conn.requests = []) (req : Request) (rest : Str) :
    let evs := handled server env s.trace.length req
    let s' := s.afterRequest server env req rest
    s'.trace = s.trace ++ evs ∧ s'.conn.writeBuffer = s.conn.writeBuffer ++ written evs ∧
      s'.conn.readBuffer = rest ∧ s'.conn.requests = [] := by
  have hset : ∀ t, t = s.ensureRequest.setParsed req rest → t.trace = s.trace ∧
      t.conn.writeBuffer = s.conn.writeBuffer ∧ t.conn.readBuffer = rest ∧
      t.conn.requests = [req] := by
    rintro t rfl
    simp [ensureRequest, hqueue, setParsed]
  simp only [afterRequest, addWriteIfPending_conn, addWriteIfPending_trace, popRequest]
  generalize ht : s.ensureRequest.setParsed req rest = t
  obtain ⟨htrace, hwb, hrb, hreq⟩ := hset t ht.symm
  obtain ⟨h1, h2⟩ := handleRequest_spec t server env req
  rw [h1, h2, htrace, hwb]
  refine ⟨rfl, rfl, ?_, ?_⟩
  · rw [afterClose_readBuffer, hrb]
  · rw [afterClose_requests, hreq, List.tail_cons]

/-- The loop serves a pipeline, request by request. -/
theorem parseLoop_pipeline (specs : List RequestSpec) {fuel : ℕ} (hfuel : specs.length ≤ fuel)
    (hqueue : s.conn.requests = [])
    (hbuf : s.conn.readBuffer = specs.flatMap fun spec => spec.build.wire) :
    ∃ s' reqs, s.parseLoop server env fuel = .ok s' ∧
      List.Forall₂ RequestSpec.Delivers specs reqs ∧
      s'.trace = s.trace ++ served server env s.trace.length reqs ∧
      s'.conn.writeBuffer =
        s.conn.writeBuffer ++ written (served server env s.trace.length reqs) ∧
      s'.conn.readBuffer = [] ∧ s'.conn.requests = [] := by
  induction specs generalizing s fuel with
  | nil =>
      have hnil : s.conn.readBuffer = [] := hbuf
      refine ⟨s, [], ?_, .nil, by simp [served], by simp [served], hnil, hqueue⟩
      cases fuel with
      | zero => rfl
      | succ fuel => rw [parseLoop, if_pos hnil]
  | cons spec specs ih =>
      obtain ⟨fuel, rfl⟩ : ∃ k, fuel = k + 1 := ⟨fuel - 1, by simp at hfuel; omega⟩
      obtain ⟨req, hparse, hdel⟩ := spec.parse_wire (specs.flatMap fun spec => spec.build.wire)
      rw [List.flatMap_cons] at hbuf
      rw [← hbuf] at hparse
      have hne : s.conn.readBuffer ≠ [] := by
        rw [hbuf, spec.wire_build]
        simp [crlf]
      let rest := specs.flatMap fun spec => spec.build.wire
      obtain ⟨htrace, hwb, hrb, hreq⟩ : (s.afterRequest server env req rest).trace = s.trace ++ _ ∧ _ :=
        afterRequest_spec hqueue req rest
      have hfuel' : specs.length ≤ fuel := by simpa using hfuel
      obtain ⟨s', reqs, hloop, hall, htrace', hwb', hrb', hreq'⟩ := ih hfuel' hreq hrb
      refine ⟨s', req :: reqs, ?_, .cons hdel hall, ?_, ?_, hrb', hreq'⟩
      · rw [parseLoop_allread hqueue hne hparse, hloop]
      · rw [htrace', htrace]
        simp [served]
      · rw [hwb', hwb, htrace]
        simp [served]

/-- **Pipelining round trip.** Requests serialized one after the other into the read buffer of a
connection are dispatched by one call of `parse_request`, each once and in order, as they were
meant; the replies are appended in that order, and no input and no request is left. -/
theorem parseRequest_pipeline (specs : List RequestSpec) (server : HttpServer) (env : Env)
    (hqueue : s.conn.requests = [])
    (hbuf : s.conn.readBuffer = specs.foldl (fun buf spec => (spec.build.sendTo buf).2) []) :
    ∃ s' reqs, s.parseRequest server env = .ok s' ∧
      List.Forall₂ RequestSpec.Delivers specs reqs ∧
      dispatchedIn s'.trace = dispatchedIn s.trace ++ reqs ∧
      s'.trace = s.trace ++ served server env s.trace.length reqs ∧
      s'.conn.writeBuffer =
        s.conn.writeBuffer ++ written (served server env s.trace.length reqs) ∧
      s'.conn.readBuffer = [] ∧ s'.conn.requests = [] := by
  suffices hmain : ∃ s' reqs, s.parseRequest server env = .ok s' ∧
      List.Forall₂ RequestSpec.Delivers specs reqs ∧
      s'.trace = s.trace ++ served server env s.trace.length reqs ∧
      s'.conn.writeBuffer =
        s.conn.writeBuffer ++ written (served server env s.trace.length reqs) ∧
      s'.conn.readBuffer = [] ∧ s'.conn.requests = [] by
    obtain ⟨s', reqs, hparse, hall, htrace, hrest⟩ := hmain
    refine ⟨s', reqs, hparse, hall, ?_, htrace, hrest⟩
    rw [htrace, dispatchedIn_append, dispatchedIn_served]
  have hwire : ∀ (specs : List RequestSpec) (buf : Str),
      specs.foldl (fun buf spec => (spec.build.sendTo buf).2) buf =
        buf ++ specs.flatMap fun spec => spec.build.wire := by
    intro specs
    induction specs with
    | nil => simp
    | cons spec specs ih =>
        intro buf
        rw [List.foldl_cons, ih, Request.sendTo_eq_wire, List.flatMap_cons, List.append_assoc]
  rw [hwire, List.nil_append] at hbuf
  by_cases hnil : s.conn.readBuffer = []
  · obtain rfl : specs = [] := by
      cases specs with
      | nil => rfl
      | cons spec specs =>
          rw [hnil, List.flatMap_cons, spec.wire_build] at hbuf
          simp [crlf] at hbuf
    refine ⟨if s.conn.status = .connected then s.addRead else s, [], ?_, .nil, ?_⟩
    · rw [parseRequest, if_pos hnil]
    · split <;> simp [served, addRead, hnil, hqueue]
  · rw [parseRequest, if_neg hnil]
    refine parseLoop_pipeline specs ?_ hqueue hbuf
    -- each request is at least one byte
    have hlen : ∀ specs : List RequestSpec,
        specs.length ≤ (specs.flatMap fun spec => spec.build.wire).length := by
      intro specs
      induction specs with
      | nil => simp
      | cons spec specs ih =>
          have : 0 < spec.build.wire.length := by
            rw [spec.wire_build]
            simp [crlf]
          simp only [List.flatMap_cons, List.length_append, List.length_cons]
          omega
    rw [hbuf]
    exact (hlen specs).trans (Nat.le_add_right _ _)

end Session

/-- A GET with a query and a header field of its own. -/
def sampleGet : RequestSpec where
  type := .get
  target := str "/dispatch?arg="
  minor := 0
  content := []
  extra := [(str "X-Id", str "a b")]
  minor_eq := .inl rfl
  content_eq := fun _ => rfl
  content_le := by decide
  target_ok := by decide +kernel
  name_ok := by
    intro kv hkv
    obtain rfl : kv = (str "X-Id", str "a b") := by simpa using hkv
    decide +kernel
  value_ok := by decide +kernel

/-- A POST whose content looks like a request. -/
def samplePost : RequestSpec where
  type := .post
  target := str "/post"
  minor := 1
  content := str "GET / HTTP/1.1\r\n\r\n"
  extra := []
  minor_eq := .inr rfl
  content_eq := fun h => absurd rfl h
  content_le := by decide
  target_ok := by decide +kernel
  name_ok := by simp
  value_ok := by simp

/-- A handler that answers every request with its path. -/
def echoEnv : Env where
  answer _ _ req := { now := [.reply newYear httpOk (str "OK") req.uri] }
  clock _ := newYear

/-- A connection that has read a GET and a POST. -/
def pipelined : Session :=
  .sole 5 ([sampleGet, samplePost].foldl (fun buf spec => (spec.build.sendTo buf).2) [])

/-- The two requests, dispatched by a server with a general handler. -/
theorem parseRequest_pipeline_pair :
    ∃ s' reqs, pipelined.parseRequest ⟨[], true⟩ echoEnv = .ok s' ∧
      List.Forall₂ RequestSpec.Delivers [sampleGet, samplePost] reqs ∧
      dispatchedIn s'.trace = [] ++ reqs ∧
      s'.trace = [] ++ served ⟨[], true⟩ echoEnv 0 reqs ∧
      s'.conn.writeBuffer = [] ++ written (served ⟨[], true⟩ echoEnv 0 reqs) ∧
      s'.conn.readBuffer = [] ∧ s'.conn.requests = [] :=
  Session.parseRequest_pipeline [sampleGet, samplePost] ⟨[], true⟩ echoEnv rfl rfl

end Libio
