import Libio.Foundation.Loops
import Libio.Http.Wiring

/-! # Handlers at work in the loop of `parse_request`

In `Connection` a handler replies and sets timers. Here a handler may do anything to its connection,
`close()` it among others, and the loop of `parse_request` is given by its rounds, so that it can be
said how it ends and what it relied on (`serveRound`). With handlers that only reply it ends as the
bounded loop of `Connection` says (`ends_parseLoop`). -/

namespace Libio

/-- What a call of `parse_request` does that its record keeps: a request is handed to
`handle_request`, a handler calls `close()`. -/
inductive Act
  | dispatched (req : Request)
  | closed
  deriving DecidableEq

/-- A connection inside a call of `parse_request`, with the record of the call. -/
structure Serving extends Session where
  record : List Act := []

/-- The handlers of a server: what each does to its connection, and whether it calls `close()`. The
number is that of the requests dispatched before in the same call. -/
structure Handlers where
  run : ℕ → Route → Request → Session → Session × Bool
  clock : ℕ → Tm

/-- How the loop of `parse_request` is left: it ends, the parser throws, or the front of an empty
queue is needed, for which the language gives no meaning. -/
inductive Ending
  | returned
  | thrown (e : Fault)
  | emptyQueue
  deriving DecidableEq

namespace Serving

/-- What the methods of a connection do to it. -/
def map (f : Session → Session) (s : Serving) : Serving := { s with toSession := f s.toSession }

/-- An operation on the session. -/
@[simp] theorem map_toSession (f : Session → Session) (s : Serving) :
    (s.map f).toSession = f s.toSession := rfl

/-- It leaves the record alone. -/
@[simp] theorem map_record (f : Session → Session) (s : Serving) : (s.map f).record = s.record := rfl

/-- How many requests have been dispatched. -/
def dispatches (s : Serving) : ℕ := s.record.countP (· ≠ .closed)

/-- `handle_request(req)`. -/
def handleRequest (server : HttpServer) (h : Handlers) (req : Request) (s : Serving) : Serving :=
  let t := if req.getHeader (str "Connection") = str "close" then s.stopReading else s.toSession
  let route := server.route req.uri
  let t := { t with trace := t.trace ++ [Event.dispatched route req] }
  match route with
  | .notFound =>
      { toSession := t.sendTo (Session.notFoundResponse (h.clock s.trace.length) req)
        record := s.record ++ [.dispatched req] }
  | _ =>
      let (t, closes) := h.run s.dispatches route req t
      { toSession := t
        record := s.record ++ .dispatched req :: if closes then [.closed] else [] }

/-- One round of the loop of `parse_request`. -/
def serveRound (server : HttpServer) (h : Handlers) : Loop Serving (Ending × Serving) := fun s =>
  if s.conn.readBuffer = [] then .done (.returned, s)
  else
    let s := s.map Session.ensureRequest
    match s.conn.requests with
    | [] => .done (.emptyQueue, s)
    | front :: _ =>
        match front.parse s.conn.readBuffer with
        | .error e => .done (.thrown e, s)
        | .ok (status, req, buf) =>
            let s := s.map (·.setParsed req buf)
            match status with
            | .allread =>
                let s := s.handleRequest server h req
                -- `pop()` does not ask whether the handler has left it a request
                if s.conn.requests = [] then .done (.emptyQueue, s)
                else .next (s.map fun s => s.popRequest.addWriteIfPending)
            | .needmore => .done (.returned, s.map fun s => s.addRead.addWriteIfPending)
            | .corrupted =>
                .done (.returned, s.map fun s => (s.stopReading.sendReply (h.clock s.trace.length)
                  httpBadrequest (str "bad request") (str "400 Bad Request")).addWriteIfPending)
            | .canceld => .done (.returned, s.map fun s => s.stopReading.addWriteIfPending)

/-- `parse_request()`, by how it is left. -/
def ParseRequest (server : HttpServer) (h : Handlers) (s : Serving) (o : Ending × Serving) : Prop :=
  if s.conn.readBuffer = [] then
    o = (.returned, if s.conn.status = .connected then s.map Session.addRead else s)
  else ∃ n, (serveRound server h).Ends s n o

variable {server : HttpServer} {h : Handlers} {s t : Serving} {o : Ending × Serving}

/-! ## One round -/

/-- The session after the parser has been called, and before its status is acted on. -/
def parsed (s : Serving) (req : Request) (buf : Str) : Serving := s.map (·.parsed req buf)

/-- What a round does, by the result of `parse`. -/
theorem serveRound_eq (server : HttpServer) (h : Handlers) (s : Serving) :
    serveRound server h s =
      if s.conn.readBuffer = [] then .done (.returned, s)
      else
        match (Session.front s.conn.requests).parse s.conn.readBuffer with
        | .error e => .done (.thrown e, s.map Session.ensureRequest)
        | .ok (status, req, buf) =>
            match status with
            | .allread =>
                let s := (s.parsed req buf).handleRequest server h req
                if s.conn.requests = [] then .done (.emptyQueue, s)
                else .next (s.map fun s => s.popRequest.addWriteIfPending)
            | .needmore => .done (.returned, (s.parsed req buf).map fun s => s.addRead.addWriteIfPending)
            | .corrupted =>
                .done (.returned, (s.parsed req buf).map fun s =>
                  (s.stopReading.sendReply (h.clock s.trace.length) httpBadrequest
                    (str "bad request") (str "400 Bad Request")).addWriteIfPending)
            | .canceld =>
                .done (.returned, (s.parsed req buf).map fun s => s.stopReading.addWriteIfPending) := by
  unfold serveRound
  simp only [map_toSession, Session.ensureRequest_requests, Session.ensureRequest_readBuffer]
  have hparsed : ∀ req buf, (s.map Session.ensureRequest).map (·.setParsed req buf) =
      s.parsed req buf := by
    intro req buf
    simp only [parsed, map, Session.parsed_eq]
  simp only [hparsed]

/-- The read buffer behind a call of `parse`. -/
@[simp] theorem parsed_readBuffer (s : Serving) (req : Request) (buf : Str) :
    (s.parsed req buf).conn.readBuffer = buf := rfl

/-- The queue behind it: the request is in front. -/
@[simp] theorem parsed_requests (s : Serving) (req : Request) (buf : Str) :
    (s.parsed req buf).conn.requests = req :: s.conn.requests.tail := rfl

/-- The descriptor behind it. -/
@[simp] theorem parsed_fd (s : Serving) (req : Request) (buf : Str) :
    (s.parsed req buf).conn.fd = s.conn.fd := rfl

/-- The record behind it. -/
@[simp] theorem parsed_record (s : Serving) (req : Request) (buf : Str) :
    (s.parsed req buf).record = s.record := rfl

/-- **A request is handled** by the 404 reply, or by the handler it is routed to. -/
theorem handleRequest_cases (server : HttpServer) (h : Handlers) (req : Request) (s : Serving) :
    ∃ t : Session, t.conn = Session.afterClose s.conn req ∧
      ((server.route req.uri = .notFound ∧ s.handleRequest server h req =
          { toSession := t.sendTo (Session.notFoundResponse (h.clock s.trace.length) req)
            record := s.record ++ [.dispatched req] }) ∨
        (server.route req.uri ≠ .notFound ∧ s.handleRequest server h req =
          { toSession := (h.run s.dispatches (server.route req.uri) req t).1
            record := s.record ++ .dispatched req ::
              if (h.run s.dispatches (server.route req.uri) req t).2 = true then [.closed]
              else [] })) := by
  have hconn : ∀ evs, ({ (if req.getHeader (str "Connection") = str "close" then s.stopReading
      else s.toSession) with trace := evs } : Session).conn = Session.afterClose s.conn req := by
    intro evs
    unfold Session.afterClose
    split <;> rfl
  unfold handleRequest
  cases server.route req.uri with
  | notFound => exact ⟨_, hconn _, .inl ⟨rfl, rfl⟩⟩
  | handler key | pattern key => exact ⟨_, hconn _, .inr ⟨by simp, rfl⟩⟩
  | general => exact ⟨_, hconn _, .inr ⟨by simp, rfl⟩⟩

/-- A request is handed to `handle_request` once. -/
@[simp] theorem dispatches_handleRequest (server : HttpServer) (h : Handlers) (req : Request)
    (s : Serving) : (s.handleRequest server h req).dispatches = s.dispatches + 1 := by
  obtain ⟨t, -, ⟨-, heq⟩ | ⟨-, heq⟩⟩ := handleRequest_cases server h req s
  · simp [heq, dispatches]
  · rw [heq]
    cases (h.run s.dispatches (server.route req.uri) req t).2 <;> simp [dispatches]

/-- **One round** is one of these: the buffer is empty; a request is complete, and the handler has
emptied the queue or not; or the loop ends for another reason, which is not the queue. -/
theorem serveRound_cases (server : HttpServer) (h : Handlers) (s : Serving) :
    (s.conn.readBuffer = [] ∧ serveRound server h s = .done (.returned, s)) ∨
    (∃ req buf, s.conn.readBuffer ≠ [] ∧
      (Session.front s.conn.requests).parse s.conn.readBuffer = .ok (.allread, req, buf) ∧
      (let t := (s.parsed req buf).handleRequest server h req
       (t.conn.requests = [] ∧ serveRound server h s = .done (.emptyQueue, t)) ∨
       (t.conn.requests ≠ [] ∧
        serveRound server h s = .next (t.map fun t => t.popRequest.addWriteIfPending)))) ∨
    (∃ o, s.conn.readBuffer ≠ [] ∧ serveRound server h s = .done o ∧ o.1 ≠ .emptyQueue ∧
      o.2.record = s.record ∧ ∀ req buf,
        (Session.front s.conn.requests).parse s.conn.readBuffer ≠ .ok (.allread, req, buf)) := by
  rw [serveRound_eq]
  by_cases hbuf : s.conn.readBuffer = []
  · exact .inl ⟨hbuf, if_pos hbuf⟩
  · simp only [if_neg hbuf]
    refine .inr ?_
    cases hparse : (Session.front s.conn.requests).parse s.conn.readBuffer with
    | error e => exact .inr ⟨_, hbuf, rfl, by simp, rfl, by simp⟩
    | ok p =>
        obtain ⟨status, req, buf⟩ := p
        cases status with
        | allread =>
            refine .inl ⟨req, buf, hbuf, rfl, ?_⟩
            by_cases hqueue : ((s.parsed req buf).handleRequest server h req).conn.requests = []
            · exact .inl ⟨hqueue, if_pos hqueue⟩
            · exact .inr ⟨hqueue, if_neg hqueue⟩
        | needmore => exact .inr ⟨_, hbuf, rfl, by simp, rfl, by simp⟩
        | corrupted => exact .inr ⟨_, hbuf, rfl, by simp, rfl, by simp⟩
        | canceld => exact .inr ⟨_, hbuf, rfl, by simp, rfl, by simp⟩

/-- **A round that goes on** has handled a complete request, and its handler has left the queue. -/
theorem serveRound_next (hround : serveRound server h s = .next t) :
    ∃ req buf, s.conn.readBuffer ≠ [] ∧
      (Session.front s.conn.requests).parse s.conn.readBuffer = .ok (.allread, req, buf) ∧
      ((s.parsed req buf).handleRequest server h req).conn.requests ≠ [] ∧
      t = ((s.parsed req buf).handleRequest server h req).map
        fun s => s.popRequest.addWriteIfPending := by
  rcases serveRound_cases server h s with ⟨-, hdone⟩ |
    ⟨req, buf, hbuf, hparse, ⟨-, hdone⟩ | ⟨hqueue, hnext⟩⟩ | ⟨o, -, hdone, -⟩
  · cases hdone.symm.trans hround
  · cases hdone.symm.trans hround
  · exact ⟨req, buf, hbuf, hparse, hqueue, (Round.next.inj (hnext.symm.trans hround)).symm⟩
  · cases hdone.symm.trans hround

/-- **The last round** finds nothing in the buffer, has handled a complete request whose handler has
emptied the queue, or ends the loop for another reason and handles none. -/
theorem serveRound_done (hround : serveRound server h s = .done o) :
    (s.conn.readBuffer = [] ∧ o = (.returned, s)) ∨
    (∃ req buf, s.conn.readBuffer ≠ [] ∧
      ((s.parsed req buf).handleRequest server h req).conn.requests = [] ∧
      o = (.emptyQueue, (s.parsed req buf).handleRequest server h req)) ∨
    (o.1 ≠ .emptyQueue ∧ o.2.record = s.record) := by
  rcases serveRound_cases server h s with ⟨hbuf, hdone⟩ |
    ⟨req, buf, hbuf, -, ⟨hqueue, hdone⟩ | ⟨-, hnext⟩⟩ | ⟨o', -, hdone, hne, hrecord, -⟩
  · exact .inl ⟨hbuf, (Round.done.inj (hdone.symm.trans hround)).symm⟩
  · exact .inr (.inl ⟨req, buf, hbuf, hqueue, (Round.done.inj (hdone.symm.trans hround)).symm⟩)
  · cases hnext.symm.trans hround
  · obtain rfl := Round.done.inj (hdone.symm.trans hround)
    exact .inr (.inr ⟨hne, hrecord⟩)

/-- The pop behind a request leaves the read buffer alone. -/
@[simp] theorem popped_readBuffer (s : Session) :
    s.popRequest.addWriteIfPending.conn.readBuffer = s.conn.readBuffer := by
  rw [Session.addWriteIfPending_conn]
  rfl

/-- It takes the front request off the queue. -/
@[simp] theorem popped_requests (s : Session) :
    s.popRequest.addWriteIfPending.conn.requests = s.conn.requests.tail := by
  rw [Session.addWriteIfPending_conn]
  rfl

/-- It leaves the descriptor alone. -/
@[simp] theorem popped_fd (s : Session) : s.popRequest.addWriteIfPending.conn.fd = s.conn.fd := by
  rw [Session.addWriteIfPending_conn]
  rfl

end Serving

/-! ## Handlers that only reply -/

/-- The handlers of `Connection`, which send at once and set timers. -/
def Handlers.ofEnv (env : Env) : Handlers where
  run _ route req s := (s.runHandler (env.answer (s.trace.length - 1) route req), false)
  clock := env.clock

/-- What is left of a call of `parse_request`. -/
def Ending.outcome : Ending × Serving → Except Fault Session
  | (.returned, s) => .ok s.toSession
  | (.thrown e, _) => .error e
  | (.emptyQueue, _) => .error .undefined

namespace Serving

variable {server : HttpServer} {env : Env} {s : Serving} {o : Ending × Serving}

/-- Handlers that are given by answers handle a request as in `Connection`. -/
theorem handleRequest_ofEnv (server : HttpServer) (env : Env) (req : Request) (s : Serving) :
    (s.handleRequest server (.ofEnv env) req).toSession =
      s.toSession.handleRequest server env req := by
  have hstop : s.toSession.stopReading.trace = s.trace := rfl
  unfold handleRequest Session.handleRequest Handlers.ofEnv
  by_cases hclose : req.getHeader (str "Connection") = str "close"
  · simp only [if_pos hclose]
    cases server.route req.uri <;> simp [hstop]
  · simp only [if_neg hclose]
    cases server.route req.uri <;> simp

/-- One round of the bounded loop. -/
theorem parseLoop_serveRound (server : HttpServer) (env : Env) (s : Serving) (fuel : ℕ) :
    (∀ o, serveRound server (.ofEnv env) s = .done o →
      Session.parseLoop server env (fuel + 1) s.toSession = Ending.outcome o) ∧
    (∀ t, serveRound server (.ofEnv env) s = .next t →
      Session.parseLoop server env (fuel + 1) s.toSession =
        Session.parseLoop server env fuel t.toSession) := by
  rw [serveRound_eq, Session.parseLoop_succ]
  by_cases hbuf : s.conn.readBuffer = []
  · simp only [if_pos hbuf]
    refine ⟨?_, fun t ht => by cases ht⟩
    rintro o ho
    obtain rfl := Round.done.inj ho
    rfl
  · simp only [if_neg hbuf]
    cases hparse : (Session.front s.conn.requests).parse s.conn.readBuffer with
    | error e =>
        refine ⟨?_, fun t ht => by cases ht⟩
        rintro o ho
        obtain rfl := Round.done.inj ho
        rfl
    | ok p =>
        obtain ⟨status, req, buf⟩ := p
        cases status with
        | allread =>
            have hhandled := handleRequest_ofEnv server env req (s.parsed req buf)
            -- a reply leaves the queue alone
            have hqueue : ((s.parsed req buf).handleRequest server (.ofEnv env) req).conn.requests ≠
                [] := by
              rw [hhandled, (Session.handleRequest_spec _ server env req).2,
                Session.afterClose_requests]
              exact List.cons_ne_nil _ _
            simp only [if_neg hqueue]
            constructor
            · intro o ho
              cases ho
            · intro t ht
              obtain rfl := Round.next.inj ht
              simp only [map_toSession, hhandled]
              rfl
        | needmore | corrupted | canceld =>
            refine ⟨?_, fun t ht => by cases ht⟩
            rintro o ho
            obtain rfl := Round.done.inj ho
            rfl

/-- **With handlers that only reply** the loop ends as the bounded loop computes. -/
theorem ends_parseLoop {n fuel : ℕ} (h : (serveRound server (.ofEnv env)).Ends s n o)
    (hf : n < fuel) : Session.parseLoop server env fuel s.toSession = Ending.outcome o := by
  induction n generalizing s fuel with
  | zero =>
      obtain ⟨fuel, rfl⟩ := Nat.exists_eq_succ_of_ne_zero (Nat.ne_zero_of_lt hf)
      rcases Loop.ends_iff.mp h with ⟨-, hround⟩ | ⟨m, t, hm, -, -⟩
      · exact (parseLoop_serveRound server env s fuel).1 o hround
      · cases hm
  | succ n ih =>
      obtain ⟨fuel, rfl⟩ := Nat.exists_eq_succ_of_ne_zero (Nat.ne_zero_of_lt hf)
      rcases Loop.ends_iff.mp h with ⟨hn, -⟩ | ⟨m, t, hm, hround, ht⟩
      · cases hn
      · obtain rfl := Nat.succ.inj hm
        rw [(parseLoop_serveRound server env s fuel).2 t hround]
        exact ih ht (by omega)

/-- **With handlers that only reply** `parse_request` is that of `Connection`. -/
theorem parseRequest_ofEnv (h : ParseRequest server (.ofEnv env) s o) :
    s.toSession.parseRequest server env = Ending.outcome o := by
  unfold ParseRequest at h
  unfold Session.parseRequest
  by_cases hbuf : s.conn.readBuffer = []
  · rw [if_pos hbuf] at h ⊢
    rw [h]
    by_cases hopen : s.conn.status = .connected
    · simp only [if_pos hopen]
      rfl
    · simp only [if_neg hopen]
      rfl
  · rw [if_neg hbuf] at h ⊢
    obtain ⟨n, hends⟩ := h
    -- the bound of the loop does not matter, so it may be taken larger than the number of rounds
    have hfuel : s.toSession.measure ≤ n + 1 + s.toSession.measure := Nat.le_add_left _ _
    rw [← ends_parseLoop hends (show n < n + 1 + s.toSession.measure by omega),
      Session.parseLoop_eq hfuel]
    rfl

end Serving

/-! ## Handlers made of calls -/

/-- `close()`, as far as a connection goes: the thread's tables are left to `HttpThread.close`. -/
def Session.close (s : Session) : Session :=
  if s.conn.fd > 0 then
    let reactor := s.reactor.erase s.conn.fd
    { s with
      reactor :=
        { reactor with io := { reactor.io with kernel := reactor.io.kernel.close s.conn.fd } }
      conn := { fd := -1, status := .closed, readBuffer := [], writeBuffer := [], requests := [] } }
  else s

/-- `close()` of a worker does that to the object and the reactor. -/
theorem HttpThread.close_session (s : HttpThread) (p : ℕ) :
    (s.session (s.conns p)).close.conn = (s.close p).conns p ∧
      (s.session (s.conns p)).close.reactor = (s.close p).reactor := by
  unfold Session.close close session
  by_cases hfd : (s.conns p).fd > 0
  · simp only [if_pos hfd]
    unfold releaseConnection
    split <;> simp [setConn, setReactor, setKernel, kernel]
  · simp [hfd]

/-- A call a handler makes. -/
inductive HandlerCall
  | send (op : SendOp)
  | close

/-- Whether it is `close()`. -/
def HandlerCall.closes : HandlerCall → Bool
  | .send _ => false
  | .close => true

/-- Calls close the connection where one of them is `close`. -/
theorem any_closes {calls : List HandlerCall} : calls.any HandlerCall.closes = true ↔ .close ∈ calls := by
  rw [List.any_eq_true]
  constructor
  · rintro ⟨call, hmem, hcloses⟩
    cases call with
    | send op => cases hcloses
    | close => exact hmem
  · exact fun h => ⟨_, h, rfl⟩

instance (calls : List HandlerCall) : Decidable (.close ∈ calls) := decidable_of_iff _ any_closes

/-- One call of a handler. -/
def Session.call (s : Session) : HandlerCall → Session
  | .send op => s.send op
  | .close => s.close

/-- Handlers that make calls in any order and number. -/
def Handlers.ofCalls (calls : ℕ → Route → Request → List HandlerCall) (clock : ℕ → Tm) :
    Handlers where
  run n route req s :=
    ((calls n route req).foldl Session.call s, (calls n route req).any HandlerCall.closes)
  clock := clock

/-- What the calls of a handler leave of the object: its descriptor is closed, or is what it was,
and so are the read buffer and the queue. -/
theorem Session.foldl_call (s : Session) (calls : List HandlerCall) :
    let t := calls.foldl call s
    (0 < s.conn.fd ∧ .close ∈ calls ∧ t.conn.fd ≤ 0 ∧ t.conn.readBuffer = [] ∧
      t.conn.requests = []) ∨
    ((0 < s.conn.fd → .close ∉ calls) ∧ t.conn.fd = s.conn.fd ∧
      t.conn.readBuffer = s.conn.readBuffer ∧ t.conn.requests = s.conn.requests) := by
  induction calls generalizing s with
  | nil => exact .inr ⟨by simp, rfl, rfl, rfl⟩
  | cons call calls ih =>
      cases call with
      | send op =>
          have hconn := (appends_send s op).conn
          have hrest := ih (s.send op)
          simp only [hconn] at hrest
          rcases hrest with ⟨hfd, hmem, hrest⟩ | ⟨hmem, hrest⟩
          · exact .inl ⟨hfd, List.mem_cons_of_mem _ hmem, hrest⟩
          · exact .inr ⟨fun hfd => by simpa using hmem hfd, hrest⟩
      | close =>
          by_cases hfd : s.conn.fd > 0
          · have hclosed : s.close.conn = { fd := -1, status := .closed } := by
              rw [close, if_pos hfd]
            -- whatever is called on it, a closed connection stays empty
            have hrest := ih s.close
            simp only [hclosed] at hrest
            rcases hrest with ⟨hpos, -⟩ | ⟨-, hfd', hbuf, hqueue⟩
            · omega
            · exact .inl ⟨hfd, List.mem_cons_self, hfd'.trans_le (by omega), hbuf, hqueue⟩
          · have hsame : s.close = s := if_neg hfd
            have hrest := ih s
            rcases hrest with ⟨hpos, -⟩ | ⟨-, hrest⟩
            · exact absurd hpos hfd
            · refine .inr ⟨fun hpos => absurd hpos hfd, ?_⟩
              rw [List.foldl_cons, Session.call, hsame]
              exact hrest

end Libio
