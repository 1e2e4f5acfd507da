import Libio.Http.Connection

/-! # What replies do to a connection

Each send function appends bytes to the write buffer, registers write interest, and does nothing
else. The bytes depend only on its arguments, so a handler's answer has a meaning of its own:
`Answer.events`. -/

namespace Libio

/-- The bytes the events of a trace append. -/
def written (evs : List Event) : Str :=
  evs.flatMap fun
    | .dispatched _ _ => []
    | .appended bytes => bytes

/-- The requests a trace dispatches. -/
def dispatchedIn (evs : List Event) : List Request :=
  evs.filterMap fun
    | .dispatched _ req => some req
    | .appended _ => none

/-- No event appends nothing. -/
@[simp] theorem written_nil : written [] = [] := rfl

/-- Bytes of traces are appended one after the other. -/
@[simp] theorem written_append (a b : List Event) : written (a ++ b) = written a ++ written b := by
  simp [written]

/-- An event appends its bytes. -/
@[simp] theorem written_appended (bytes : Str) : written [.appended bytes] = bytes := by
  simp [written]

/-- A dispatch appends nothing. -/
@[simp] theorem written_dispatched (route : Route) (req : Request) (evs : List Event) :
    written (.dispatched route req :: evs) = written evs := by
  simp [written]

/-- Dispatches of traces come one after the other. -/
@[simp] theorem dispatchedIn_append (a b : List Event) :
    dispatchedIn (a ++ b) = dispatchedIn a ++ dispatchedIn b := by
  simp [dispatchedIn]

/-- The bytes a request is sent as. -/
def Request.wire (r : Request) : Str := (r.sendTo []).2

/-- A request is sent behind what is in the buffer. -/
theorem Request.sendTo_eq_wire (r : Request) (out : Str) : (r.sendTo out).2 = out ++ r.wire := by
  rw [Request.wire, Request.sendTo_snd, Request.sendTo_snd, List.nil_append]

/-- The reply `send_reply` sends. -/
def replyOf (now : Tm) (code : HttpCode) (reason content : Str) : Request :=
  Request.setResponse {} now code reason (if content = [] then none else some content)

/-- What a call of a handler appends. -/
def SendOp.events : SendOp → List Event
  | .reply now code reason content => [.appended (replyOf now code reason content).wire]
  | .replyBuffer now code reason content =>
      [.appended (Request.setResponse {} now code reason content).wire]
  | .request r => [.appended r.wire]
  | .chunkStart now code reason =>
      [.appended ((Request.setResponse {} now code reason none).setHeader
        (str "Transfer-Encoding") (str "chunked")).wire]
  | .chunk buf => [.appended (hex buf.length ++ crlf), .appended buf, .appended crlf]
  | .chunkEnd => [.appended (str "0\r\n\r\n")]

/-- What a sequence of calls appends. -/
def eventsOf (ops : List SendOp) : List Event := ops.flatMap SendOp.events

/-- Every handler appends at least one byte before it returns. -/
def Env.Replies (env : Env) : Prop :=
  ∀ n route req, written (eventsOf (env.answer n route req).now) ≠ []

namespace Session

/-- `s'` is `s` after the events `evs`: they stand at the end of the trace, the bytes they append at
the end of the write buffer, and nothing else of the object has changed. -/
structure Appends (s s' : Session) (evs : List Event) : Prop where
  trace : s'.trace = s.trace ++ evs
  conn : s'.conn = { s.conn with writeBuffer := s.conn.writeBuffer ++ written evs }

variable {s s' s'' : Session}

/-- No event changes nothing. -/
theorem Appends.refl (s : Session) : Appends s s [] := ⟨by simp, by simp⟩

/-- Events are appended one after the other. -/
theorem Appends.trans {evs evs' : List Event} (h : Appends s s' evs) (h' : Appends s' s'' evs') :
    Appends s s'' (evs ++ evs') where
  trace := by rw [h'.trace, h.trace, List.append_assoc]
  conn := by rw [h'.conn, h.conn, written_append, List.append_assoc]

/-- A push appends its bytes. -/
theorem appends_push (s : Session) (bytes : Str) :
    Appends s (s.push bytes) [.appended bytes] := ⟨rfl, by simp [push]⟩

/-- Asking for write events appends nothing. -/
theorem appends_addWrite (s : Session) : Appends s s.addWrite [] :=
  ⟨by simp [addWrite], by simp [addWrite]⟩

/-- `send_to` appends the bytes of the request. -/
theorem appends_sendTo (s : Session) (req : Request) :
    Appends s (s.sendTo req) [.appended req.wire] :=
  ⟨rfl, by rw [written_appended, ← Request.sendTo_eq_wire]; rfl⟩

/-- So does `send_request`. -/
theorem appends_sendRequest (s : Session) (req : Request) :
    Appends s (s.sendRequest req) [.appended req.wire] :=
  (appends_sendTo s req).trans (appends_addWrite _)

/-- `send_reply` appends the bytes of the reply. -/
theorem appends_sendReply (s : Session) (now : Tm) (code : HttpCode) (reason content : Str) :
    Appends s (s.sendReply now code reason content)
      [.appended (replyOf now code reason content).wire] := by
  unfold sendReply replyOf
  split <;> exact appends_sendRequest s _

/-- **A call of a handler** appends what it says. -/
theorem appends_send (s : Session) (op : SendOp) : Appends s (s.send op) op.events := by
  cases op with
  | reply now code reason content => exact appends_sendReply s now code reason content
  | replyBuffer now code reason content => exact appends_sendRequest s _
  | request r => exact appends_sendRequest s r
  | chunkStart now code reason => exact appends_sendRequest s _
  | chunk buf =>
      exact (((appends_push s _).trans (appends_push _ _)).trans (appends_push _ _)).trans
        (appends_addWrite _)
  | chunkEnd => exact (appends_push s _).trans (appends_addWrite _)

/-- Calls one after the other append what they say. -/
theorem appends_foldl_send (s : Session) (ops : List SendOp) :
    Appends s (ops.foldl send s) (eventsOf ops) := by
  induction ops generalizing s with
  | nil => exact Appends.refl s
  | cons op ops ih => exact (appends_send s op).trans (ih _)

/-- A handler appends what its calls say. -/
theorem appends_runHandler (s : Session) (a : Answer) :
    Appends s (s.runHandler a) (eventsOf a.now) :=
  ⟨(appends_foldl_send s a.now).trace, (appends_foldl_send s a.now).conn⟩

/-! ## Requests -/

/-- What handling a request appends: the dispatch, then the reply of the handler it is routed to. -/
def handled (server : HttpServer) (env : Env) (n : ℕ) (req : Request) : List Event :=
  let route := server.route req.uri
  .dispatched route req ::
    match route with
    | .notFound => [.appended (notFoundResponse (env.clock n) req).wire]
    | _ => eventsOf (env.answer n route req).now

/-- Asking for write events leaves the object alone. -/
theorem addWriteIfPending_conn (s : Session) : s.addWriteIfPending.conn = s.conn := by
  unfold addWriteIfPending
  split <;> rfl

/-- It leaves the trace alone. -/
theorem addWriteIfPending_trace (s : Session) : s.addWriteIfPending.trace = s.trace := by
  unfold addWriteIfPending
  split <;> rfl

/-- The object after the choice whether to go on reading. -/
def afterClose (c : HttpConnection) (req : Request) : HttpConnection :=
  if req.getHeader (str "Connection") = str "close" then { c with status := .closing } else c

section AfterClose

variable (c : HttpConnection) (req : Request)

/-- The choice whether to go on reading leaves the descriptor alone. -/
@[simp] theorem afterClose_fd : (afterClose c req).fd = c.fd := by
  unfold afterClose
  split <;> rfl

/-- It leaves the read buffer alone. -/
@[simp] theorem afterClose_readBuffer : (afterClose c req).readBuffer = c.readBuffer := by
  unfold afterClose
  split <;> rfl

/-- It leaves the write buffer alone. -/
@[simp] theorem afterClose_writeBuffer : (afterClose c req).writeBuffer = c.writeBuffer := by
  unfold afterClose
  split <;> rfl

/-- It leaves the queue of requests alone. -/
@[simp] theorem afterClose_requests : (afterClose c req).requests = c.requests := by
  unfold afterClose
  split <;> rfl

end AfterClose

/-- **A request is handled** by stopping to read where it asks for that, and appending the reply. -/
theorem handleRequest_spec (s : Session) (server : HttpServer) (env : Env) (req : Request) :
    (s.handleRequest server env req).trace =
      s.trace ++ handled server env s.trace.length req ∧
    (s.handleRequest server env req).conn =
      { afterClose s.conn req with
        writeBuffer :=
          s.conn.writeBuffer ++ written (handled server env s.trace.length req) } := by
  have hstop : ∀ t : Session, t = (if req.getHeader (str "Connection") = str "close" then
      s.stopReading else s) → t.trace = s.trace ∧ t.conn = afterClose s.conn req := by
    rintro t rfl
    unfold afterClose
    split <;> exact ⟨rfl, rfl⟩
  unfold handleRequest
  simp only
  generalize ht : (if req.getHeader (str "Connection") = str "close" then
    s.stopReading else s) = t
  obtain ⟨htrace, hconn⟩ := hstop t ht.symm
  rw [htrace]
  have happ : ∀ {t' : Session} {evs : List Event},
      Appends { t with trace := s.trace ++ [Event.dispatched (server.route req.uri) req] } t' evs →
      handled server env s.trace.length req = .dispatched (server.route req.uri) req :: evs →
      t'.trace = s.trace ++ handled server env s.trace.length req ∧
      t'.conn = { afterClose s.conn req with
        writeBuffer :=
          s.conn.writeBuffer ++ written (handled server env s.trace.length req) } := by
    intro t' evs h hevs
    rw [hevs, h.trace, h.conn, hconn, afterClose_writeBuffer]
    simp
  cases hroute : server.route req.uri with
  | notFound =>
      rw [hroute] at happ
      exact happ (appends_sendTo _ _) (by simp [handled, hroute])
  | handler key =>
      rw [hroute] at happ
      exact happ (appends_runHandler _ _) (by simp [handled, hroute])
  | pattern key =>
      rw [hroute] at happ
      exact happ (appends_runHandler _ _) (by simp [handled, hroute])
  | general =>
      rw [hroute] at happ
      exact happ (appends_runHandler _ _) (by simp [handled, hroute])

end Session

end Libio
