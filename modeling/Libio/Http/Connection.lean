import Libio.Http.Parse
import Libio.Model.Reactor

/-! # HTTP connections

The class `http_connection` of `http/http_connection.cc`: sending replies, and turning what was read
into requests. A `Session` is what the methods of a connection work on, and a trace of what they do.
What handlers answer and what the clock shows is the environment's choice. -/

namespace Libio

/-- `connection_status_t`. -/
inductive ConnectionStatus
  | connected
  | closing
  | closed
  deriving DecidableEq, Repr

/-- The class `http_connection`. -/
structure HttpConnection where
  fd : ℤ := -1
  status : ConnectionStatus := .closed
  readBuffer : Str := []
  writeBuffer : Str := []
  requests : List Request := []

/-- The handlers a server has: the keys of `requestHandlers`, and whether there is a
`generalHandler`. -/
structure HttpServer where
  requestHandlers : List Str
  generalHandler : Bool

/-- Where a request goes: to the handler of its own path, to the handler of a pattern, to the
general handler, or nowhere. -/
inductive Route
  | handler (key : Str)
  | pattern (key : Str)
  | general
  | notFound
  deriving DecidableEq

/-- The calls with which a handler replies to a connection. -/
inductive SendOp
  | reply (now : Tm) (code : HttpCode) (reason content : Str)
  | replyBuffer (now : Tm) (code : HttpCode) (reason : Str) (content : Option Str)
  | request (r : Request)
  | chunkStart (now : Tm) (code : HttpCode) (reason : Str)
  | chunk (buf : Str)
  | chunkEnd

/-- What a handler does: the calls it makes at once, and for each timer it sets the calls the timer
will make. -/
structure Answer where
  now : List SendOp := []
  later : List (List SendOp) := []

/-- The choices of the environment in one callback, each numbered by the length of the trace at
which it is made: what a handler answers, and the time. -/
structure Env where
  answer : ℕ → Route → Request → Answer
  clock : ℕ → Tm

/-- What a callback does that can be seen: a request is dispatched, bytes are appended to the write
buffer. -/
inductive Event
  | dispatched (route : Route) (req : Request)
  | appended (bytes : Str)
  deriving DecidableEq

/-- What the methods of a connection work on: the object, the reactor of its thread, the timers set
for it, and the trace. -/
structure Session where
  conn : HttpConnection
  reactor : Reactor ℕ
  timers : List (List SendOp) := []
  trace : List Event := []

/-- The only connection of a worker, with client 0 at descriptor `fd`, after it has read `input`. -/
def Session.sole (fd : ℤ) (input : Str) : Session where
  conn := { fd := fd, status := .connected, readBuffer := input }
  reactor :=
    { channels := fun _ => none
      needclean := []
      io := ⟨fun _ => none, ⟨Function.update (fun _ => none) fd (some 0), fun _ => none⟩⟩
      active := [] }

/-! ## Routing -/

/-- Whether a path matches a pattern: equally many segments, each equal or `*`. -/
def matchesPattern (pattern uri : Str) : Bool :=
  let v1 := split pattern 47
  let v2 := split uri 47
  v1.length = v2.length ∧ ∀ p ∈ v1.zip v2, p.1 = p.2 ∨ p.1 = str "*"

/-- The choice of the handler in `handle_request`. -/
def HttpServer.route (server : HttpServer) (uri : Str) : Route :=
  if uri ∈ server.requestHandlers then .handler uri
  else
    match server.requestHandlers.find? fun key => matchesPattern key uri with
    | some key => .pattern key
    | none => if server.generalHandler then .general else .notFound

namespace Session

variable (s : Session)

/-! ## Sending -/

/-- Append to the write buffer. -/
def push (bytes : Str) : Session :=
  { s with
    conn := { s.conn with writeBuffer := s.conn.writeBuffer ++ bytes }
    trace := s.trace ++ [.appended bytes] }

/-- `get_reactor()->add_write(fd)`. -/
def addWrite : Session := { s with reactor := s.reactor.addWrite s.conn.fd }

/-- `get_reactor()->add_read(fd)`. -/
def addRead : Session := { s with reactor := s.reactor.addRead s.conn.fd }

/-- `req->send_to(get_write_buffer())`. -/
def sendTo (req : Request) : Session :=
  { s with
    conn := { s.conn with writeBuffer := (req.sendTo s.conn.writeBuffer).2 }
    trace := s.trace ++ [.appended (req.sendTo []).2] }

/-- `send_request(req)`. -/
def sendRequest (req : Request) : Session := (s.sendTo req).addWrite

/-- `send_reply(code, reason, content)` with a buffer, or none. -/
def sendReplyBuffer (now : Tm) (code : HttpCode) (reason : Str) (content : Option Str) : Session :=
  s.sendRequest (Request.setResponse {} now code reason content)

/-- `send_reply(code, reason, content)` with a string. -/
def sendReply (now : Tm) (code : HttpCode) (reason content : Str) : Session :=
  if content = [] then s.sendReplyBuffer now code reason none
  else s.sendReplyBuffer now code reason (some content)

/-- `send_chunk_start(code, reason)`. -/
def sendChunkStart (now : Tm) (code : HttpCode) (reason : Str) : Session :=
  s.sendRequest ((Request.setResponse {} now code reason none).setHeader
    (str "Transfer-Encoding") (str "chunked"))

/-- `send_chunk(buf)`. -/
def sendChunk (buf : Str) : Session :=
  (((s.push (hex buf.length ++ crlf)).push buf).push crlf).addWrite

/-- `send_chunk_end()`. -/
def sendChunkEnd : Session := (s.push (str "0\r\n\r\n")).addWrite

/-- One call of a handler. -/
def send : SendOp → Session
  | .reply now code reason content => s.sendReply now code reason content
  | .replyBuffer now code reason content => s.sendReplyBuffer now code reason content
  | .request r => s.sendRequest r
  | .chunkStart now code reason => s.sendChunkStart now code reason
  | .chunk buf => s.sendChunk buf
  | .chunkEnd => s.sendChunkEnd

/-- A handler at work. -/
def runHandler (a : Answer) : Session :=
  let s := a.now.foldl send s
  { s with timers := s.timers ++ a.later }

/-! ## Requests -/

/-- What a connection does when it stops reading for good: `remove_read_handler(fd)` and the status
`CLOSING`. The `shutdown` before it shows only in what later reads return. -/
def stopReading : Session :=
  { s with
    reactor := s.reactor.removeReadHandler s.conn.fd
    conn := { s.conn with status := .closing } }

/-- The reply to a request that no handler takes. -/
def notFoundResponse (now : Tm) (req : Request) : Request :=
  let r := Request.setResponse { uri := req.uri } now httpNotfound (str "NOT FOUND") none
  if req.getHeader (str "Connection") = str "close" then
    r.setHeader (str "Connection") (str "close")
  else r

/-- `handle_request(req)`. -/
def handleRequest (server : HttpServer) (env : Env) (req : Request) : Session :=
  -- what happens to the connection is settled before the handler runs
  let s := if req.getHeader (str "Connection") = str "close" then s.stopReading else s
  let route := server.route req.uri
  let n := s.trace.length
  let s := { s with trace := s.trace ++ [Event.dispatched route req] }
  match route with
  | .notFound => s.sendTo (notFoundResponse (env.clock n) req)
  | _ => s.runHandler (env.answer n route req)

/-- `if (!get_write_buffer()->empty()) get_reactor()->add_write(fd)`. -/
def addWriteIfPending : Session := if s.conn.writeBuffer = [] then s else s.addWrite

/-- `if (requests.empty()) requests.push(req)` with a fresh request. -/
def ensureRequest : Session :=
  if s.conn.requests = [] then
    { s with conn := { s.conn with requests := [{ kind := .request }] } }
  else s

/-- The first request of the queue and the read buffer after a call of the parser. -/
def setParsed (r : Request) (buf : Str) : Session :=
  { s with conn := { s.conn with requests := r :: s.conn.requests.tail, readBuffer := buf } }

/-- `requests.pop()`. -/
def popRequest : Session := { s with conn := { s.conn with requests := s.conn.requests.tail } }

/-- What `parse_request` does with a status of the parser, and whether it goes on. -/
def act (server : HttpServer) (env : Env) (status : ParseStatus) (req : Request) : Session × Bool :=
  match status with
  | .allread => ((s.handleRequest server env req).popRequest, true)
  | .needmore => (s.addRead, false)
  | .corrupted =>
      (s.stopReading.sendReply (env.clock s.trace.length) httpBadrequest (str "bad request")
        (str "400 Bad Request"), false)
  | .canceld => (s.stopReading, false)

/-- At most `fuel` rounds of the loop of `parse_request`. -/
def parseLoop (server : HttpServer) (env : Env) : ℕ → Session → Except Fault Session
  | 0, s => .ok s
  | fuel + 1, s =>
      if s.conn.readBuffer = [] then .ok s
      else
        let s := s.ensureRequest
        match s.conn.requests with
        | [] => .error .undefined
        | front :: _ => do
            let (status, req, buf) ← front.parse s.conn.readBuffer
            let (s, processing) := (s.setParsed req buf).act server env status req
            let s := s.addWriteIfPending
            -- nothing but the status of the parser decides whether the loop goes on
            if processing then parseLoop server env fuel s else .ok s

/-- `parse_request()`. -/
def parseRequest (server : HttpServer) (env : Env) : Except Fault Session :=
  if s.conn.readBuffer = [] then
    .ok (if s.conn.status = .connected then s.addRead else s)
  else parseLoop server env (s.conn.readBuffer.length + s.conn.requests.length) s

end Session

end Libio
