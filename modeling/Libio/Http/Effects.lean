import Libio.Http.ParseFrame
import Libio.Http.Replies

/-! # What the methods of a connection do to it and to the reactor

Whatever a connection does with its input, it appends to its write buffer, may start closing, and
touches the interest of its own descriptor alone (`works_parseRequest`). On a descriptor whose map
is in step with the kernel the methods add and remove interest as their names say, and so what is
left when `parse_request` returns can be told from the input (`parseLoop_quiet`,
`parseLoop_attended`). -/

namespace Libio

namespace Session

/-! ## What is touched -/

/-- `s'` is `s` after methods of the connection have run. -/
structure Works (s s' : Session) : Prop where
  fd : s'.conn.fd = s.conn.fd
  status : s'.conn.status = s.conn.status ∨ s'.conn.status = .closing
  output : ∃ evs, s'.trace = s.trace ++ evs ∧
    s'.conn.writeBuffer = s.conn.writeBuffer ++ written evs
  reactor : Reactor.Touches s.conn.fd s.reactor s'.reactor

variable {s s' s'' : Session}

/-- Nothing is work of a connection. -/
theorem Works.refl (s : Session) : Works s s where
  fd := rfl
  status := .inl rfl
  output := ⟨[], by simp, by simp⟩
  reactor := .refl _ _

/-- Work after work is work. -/
theorem Works.trans (h : Works s s') (h' : Works s' s'') : Works s s'' where
  fd := h'.fd.trans h.fd
  status := by
    rcases h'.status with hs | hs
    · rw [hs]
      exact h.status
    · exact .inr hs
  output := by
    obtain ⟨evs, ht, hw⟩ := h.output
    obtain ⟨evs', ht', hw'⟩ := h'.output
    exact ⟨evs ++ evs', by rw [ht', ht, List.append_assoc],
      by rw [hw', hw, written_append, List.append_assoc]⟩
  reactor := h.reactor.trans (h.fd ▸ h'.reactor)

/-- Events that are appended, with the reactor touched for this descriptor alone, are work. -/
theorem Works.of_appends {evs : List Event} (h : Appends s s' evs)
    (hr : Reactor.Touches s.conn.fd s.reactor s'.reactor) : Works s s' where
  fd := by rw [h.conn]
  status := .inl (by rw [h.conn])
  output := ⟨evs, h.trace, by rw [h.conn]⟩
  reactor := hr

/-- A push is work. -/
theorem works_push (s : Session) (bytes : Str) : Works s (s.push bytes) :=
  .of_appends (appends_push s bytes) (.refl _ _)

/-- So is asking for write events. -/
theorem works_addWrite (s : Session) : Works s s.addWrite :=
  .of_appends (appends_addWrite s) Reactor.touches_addWrite

/-- So is asking for read events. -/
theorem works_addRead (s : Session) : Works s s.addRead :=
  have h : Appends s s.addRead [] := ⟨by simp [addRead], by simp [addRead]⟩
  .of_appends h Reactor.touches_addRead

/-- So is `send_to`. -/
theorem works_sendTo (s : Session) (req : Request) : Works s (s.sendTo req) :=
  .of_appends (appends_sendTo s req) (.refl _ _)

/-- So is `send_request`. -/
theorem works_sendRequest (s : Session) (req : Request) : Works s (s.sendRequest req) :=
  (works_sendTo s req).trans (works_addWrite _)

/-- So is `send_reply`. -/
theorem works_sendReply (s : Session) (now : Tm) (code : HttpCode) (reason content : Str) :
    Works s (s.sendReply now code reason content) := by
  unfold sendReply
  split <;> exact works_sendRequest s _

/-- So is any call of a handler. -/
theorem works_send (s : Session) (op : SendOp) : Works s (s.send op) := by
  cases op with
  | reply now code reason content => exact works_sendReply s now code reason content
  | replyBuffer now code reason content => exact works_sendRequest s _
  | request r => exact works_sendRequest s r
  | chunkStart now code reason => exact works_sendRequest s _
  | chunk buf =>
      exact (((works_push s _).trans (works_push _ _)).trans (works_push _ _)).trans
        (works_addWrite _)
  | chunkEnd => exact (works_push s _).trans (works_addWrite _)

/-- So are such calls one after the other. -/
theorem works_foldl_send (s : Session) (ops : List SendOp) : Works s (ops.foldl send s) := by
  induction ops generalizing s with
  | nil => exact .refl s
  | cons op ops ih => exact (works_send s op).trans (ih _)

/-- So is a handler. -/
theorem works_runHandler (s : Session) (a : Answer) : Works s (s.runHandler a) :=
  let h := works_foldl_send s a.now
  ⟨h.fd, h.status, h.output, h.reactor⟩

/-- So is giving up read interest. -/
theorem works_stopReading (s : Session) : Works s s.stopReading where
  fd := rfl
  status := .inr rfl
  output := ⟨[], by simp [stopReading], by simp [stopReading]⟩
  reactor := Reactor.touches_removeReadHandler

/-- The session in which a request is dispatched: it has stopped reading where the request asks for
that. -/
theorem works_dispatch (s : Session) (server : HttpServer) (env : Env) (req : Request) :
    Works (if req.getHeader (str "Connection") = str "close" then s.stopReading else s)
      (s.handleRequest server env req) := by
  have hdispatch : ∀ (t : Session) (ev : Event), written [ev] = [] →
      Works t { t with trace := t.trace ++ [ev] } :=
    fun t ev hev => ⟨rfl, .inl rfl, ⟨[ev], rfl, by simp [hev]⟩, .refl _ _⟩
  refine (hdispatch _ (.dispatched (server.route req.uri) req) (by simp)).trans ?_
  unfold handleRequest
  simp only
  cases server.route req.uri with
  | notFound => exact works_sendTo _ _
  | handler key => exact works_runHandler _ _
  | pattern key => exact works_runHandler _ _
  | general => exact works_runHandler _ _

/-- So is the handling of a request. -/
theorem works_handleRequest (s : Session) (server : HttpServer) (env : Env) (req : Request) :
    Works s (s.handleRequest server env req) := by
  refine Works.trans ?_ (works_dispatch s server env req)
  split
  · exact works_stopReading s
  · exact .refl s

/-- So is what `parse_request` does with the result of `parse`. -/
theorem works_act (s : Session) (server : HttpServer) (env : Env) (status : ParseStatus)
    (req : Request) : Works s (s.act server env status req).1 := by
  cases status with
  | allread =>
      have h := works_handleRequest s server env req
      exact ⟨h.fd, h.status, h.output, h.reactor⟩
  | needmore => exact works_addRead s
  | corrupted =>
      exact (works_stopReading s).trans (works_sendReply s.stopReading
        (env.clock s.trace.length) httpBadrequest (str "bad request") (str "400 Bad Request"))
  | canceld => exact works_stopReading s

/-- So is asking for write events when something is pending. -/
theorem works_addWriteIfPending (s : Session) : Works s s.addWriteIfPending := by
  unfold addWriteIfPending
  split
  · exact .refl s
  · exact works_addWrite s

/-! ## One round of the loop -/

/-- The request the next call of the parser goes to. -/
def front (requests : List Request) : Request := requests.headD { kind := .request }

/-- The session in which the outcome of a call of the parser is acted on. -/
def parsed (s : Session) (req : Request) (buf : Str) : Session :=
  { s with conn := { s.conn with requests := req :: s.conn.requests.tail, readBuffer := buf } }

/-- The two ways to write the state behind a call of `parse`. -/
theorem parsed_eq (s : Session) (req : Request) (buf : Str) :
    s.ensureRequest.setParsed req buf = s.parsed req buf := by
  unfold ensureRequest
  split
  · next h => simp [setParsed, parsed, h]
  · rfl

/-- The queue the parser finds. -/
theorem ensureRequest_requests (s : Session) :
    s.ensureRequest.conn.requests = front s.conn.requests :: s.conn.requests.tail := by
  unfold ensureRequest front
  cases hr : s.conn.requests <;> simp [hr]

/-- Making a request leaves the read buffer alone. -/
theorem ensureRequest_readBuffer (s : Session) :
    s.ensureRequest.conn.readBuffer = s.conn.readBuffer := by
  unfold ensureRequest
  split <;> rfl

/-- A call of `parse` is work. -/
theorem works_parsed (s : Session) (req : Request) (buf : Str) : Works s (s.parsed req buf) :=
  ⟨rfl, .inl rfl, ⟨[], by simp [parsed], by simp [parsed]⟩, .refl _ _⟩

/-- One round of the loop of `parse_request`. -/
theorem parseLoop_succ (s : Session) (server : HttpServer) (env : Env) (fuel : ℕ) :
    parseLoop server env (fuel + 1) s =
      if s.conn.readBuffer = [] then .ok s
      else (front s.conn.requests).parse s.conn.readBuffer >>= fun p =>
        let res := (s.parsed p.2.1 p.2.2).act server env p.1 p.2.1
        if res.2 then parseLoop server env fuel res.1.addWriteIfPending
        else .ok res.1.addWriteIfPending := by
  rw [parseLoop]
  simp only [ensureRequest_requests, ensureRequest_readBuffer, parsed_eq]

/-- What one round leaves to be done. -/
def measure (s : Session) : ℕ := s.conn.readBuffer.length + s.conn.requests.length

/-- A round that goes on has taken a request off the queue or bytes off the buffer. -/
theorem measure_lt {server : HttpServer} {env : Env} {status : ParseStatus} {req : Request}
    {buf : Str} (hparse : (front s.conn.requests).parse s.conn.readBuffer = .ok (status, req, buf))
    (hgo : ((s.parsed req buf).act server env status req).2 = true) :
    ((s.parsed req buf).act server env status req).1.addWriteIfPending.measure < s.measure := by
  have hkeep : ∀ t : Session, t.addWriteIfPending.measure = t.measure := by
    intro t
    rw [measure, addWriteIfPending_conn, measure]
  cases status with
  | needmore | corrupted | canceld => cases hgo
  | allread =>
      have hhandled := ((s.parsed req buf).handleRequest_spec server env req).2
      have hbuf : ((s.parsed req buf).handleRequest server env req).conn.readBuffer = buf := by
        rw [hhandled, afterClose_readBuffer]
        rfl
      have hqueue : ((s.parsed req buf).handleRequest server env req).conn.requests =
          req :: s.conn.requests.tail := by
        rw [hhandled, afterClose_requests]
        rfl
      obtain ⟨-, hsuffix, hlt⟩ := Request.parse_advances hparse
      have hle := hsuffix.length_le
      rw [hkeep]
      simp only [act, popRequest, measure, hbuf, hqueue, List.tail_cons]
      cases hr : s.conn.requests with
      | nil =>
          -- a fresh request reads its first line
          have := hlt (by simp [front, hr]) rfl
          simpa using this
      | cons r rs =>
          simp only [List.tail_cons, List.length_cons]
          simp only at hle
          omega

/-- **The bound of the loop is never what ends it.** -/
theorem parseLoop_eq {server : HttpServer} {env : Env} {fuel : ℕ} (hf : s.measure ≤ fuel) :
    parseLoop server env fuel s = parseLoop server env s.measure s := by
  suffices hs : ∀ {f g : ℕ} {s : Session}, s.measure ≤ f → s.measure ≤ g →
      parseLoop server env f s = parseLoop server env g s from hs hf le_rfl
  intro f
  induction f with
  | zero =>
      intro g s hf hg
      have hbuf : s.conn.readBuffer = [] := by
        apply List.length_eq_zero_iff.mp
        unfold measure at hf
        omega
      cases g with
      | zero => rfl
      | succ g => rw [parseLoop_succ, if_pos hbuf, parseLoop]
  | succ f ih =>
      intro g s hf hg
      by_cases hbuf : s.conn.readBuffer = []
      · cases g with
        | zero => rw [parseLoop_succ, if_pos hbuf, parseLoop]
        | succ g => rw [parseLoop_succ, parseLoop_succ, if_pos hbuf, if_pos hbuf]
      · cases g with
        | zero =>
            have := List.length_pos_iff.mpr hbuf
            unfold measure at hg
            omega
        | succ g =>
            rw [parseLoop_succ, parseLoop_succ, if_neg hbuf, if_neg hbuf]
            cases hparse : (front s.conn.requests).parse s.conn.readBuffer with
            | error e => rfl
            | ok p =>
                obtain ⟨status, req, buf⟩ := p
                simp only [bind, Except.bind]
                split
                · next hgo =>
                    have := measure_lt hparse hgo
                    exact ih (by omega) (by omega)
                · rfl

/-- **What `parse_request` touches.** -/
theorem works_parseLoop {server : HttpServer} {env : Env} {fuel : ℕ}
    (h : parseLoop server env fuel s = .ok s') : Works s s' := by
  induction fuel generalizing s with
  | zero =>
      obtain rfl := Except.ok.inj h
      exact .refl s
  | succ fuel ih =>
      rw [parseLoop_succ] at h
      split at h
      · obtain rfl := Except.ok.inj h
        exact .refl s
      · obtain ⟨p, -, h⟩ := bind_eq_ok.mp h
        have hround : Works s (((s.parsed p.2.1 p.2.2).act server env p.1 p.2.1).1.addWriteIfPending) :=
          (works_parsed s _ _).trans ((works_act _ _ _ _ _).trans (works_addWriteIfPending _))
        simp only at h
        split at h
        · exact hround.trans (ih h)
        · obtain rfl := Except.ok.inj h
          exact hround

/-- **A call of `parse_request`** is work of the connection. -/
theorem works_parseRequest {server : HttpServer} {env : Env}
    (h : s.parseRequest server env = .ok s') : Works s s' := by
  unfold parseRequest at h
  split at h
  · obtain rfl := Except.ok.inj h
    split
    · exact works_addRead s
    · exact .refl s
  · exact works_parseLoop h

/-! ## Interest -/

/-- The interest recorded for the descriptor. -/
def interest (s : Session) : Mask := s.reactor.io.old s.conn.fd

/-- Whether the descriptor is live. -/
def Live (s : Session) : Prop := s.reactor.Live s.conn.fd

/-- `t` is `s` after nothing but sending: the interest in reading is as it was, an interest in
writing is kept. -/
structure Sends (s t : Session) : Prop where
  live : t.Live
  rd : t.interest.rd = s.interest.rd
  wr : s.interest.wr = true → t.interest.wr = true

/-- Nothing is sending of a live connection. -/
theorem Sends.refl (hl : s.Live) : Sends s s := ⟨hl, rfl, id⟩

/-- Sending after sending is sending. -/
theorem Sends.trans (h : Sends s s') (h' : Sends s' s'') : Sends s s'' :=
  ⟨h'.live, h'.rd.trans h.rd, h'.wr ∘ h.wr⟩

/-- Whatever adds write interest, and nothing else to the reactor. -/
theorem sends_of_reactor (hl : s.Live) (hfd : s'.conn.fd = s.conn.fd)
    (hr : s'.reactor = s.reactor.addWrite s.conn.fd) : Sends s s' ∧ s'.interest.wr = true := by
  obtain ⟨hlive, hold⟩ := Reactor.Live.addWrite hl
  have hi : s'.interest = s.interest.or .WR := by
    rw [interest, hr, hfd]
    exact hold
  refine ⟨⟨?_, ?_, fun _ => ?_⟩, ?_⟩
  · rw [Live, hr, hfd]
    exact hlive
  all_goals simp [hi, Mask.or, Mask.WR]

/-- Asking for write events is sending, and registers them. -/
theorem sends_addWrite (hl : s.Live) : Sends s s.addWrite ∧ s.addWrite.interest.wr = true :=
  sends_of_reactor hl rfl rfl

/-- Every call of a handler adds write interest, once. -/
theorem send_reactor (s : Session) (op : SendOp) :
    (s.send op).reactor = s.reactor.addWrite s.conn.fd := by
  cases op with
  | reply now code reason content =>
      rw [send, sendReply]
      split <;> rfl
  | replyBuffer now code reason content => rfl
  | request r => rfl
  | chunkStart now code reason => rfl
  | chunk buf => rfl
  | chunkEnd => rfl

/-- A call of a handler is sending, and registers write events. -/
theorem sends_send (hl : s.Live) (op : SendOp) :
    Sends s (s.send op) ∧ (s.send op).interest.wr = true :=
  sends_of_reactor hl (works_send s op).fd (send_reactor s op)

/-- So are calls one after the other. -/
theorem sends_foldl_send (hl : s.Live) (ops : List SendOp) : Sends s (ops.foldl send s) := by
  induction ops generalizing s with
  | nil => exact .refl hl
  | cons op ops ih =>
      have h := (sends_send hl op).1
      exact h.trans (ih h.live)

/-- On a descriptor that is not open, the calls of a handler leave the reactor alone. -/
theorem foldl_send_reactor_of_neg (hfd : s.conn.fd < 0) (ops : List SendOp) :
    (ops.foldl send s).reactor = s.reactor := by
  induction ops generalizing s with
  | nil => rfl
  | cons op ops ih =>
      rw [List.foldl_cons, ih ((works_send s op).fd ▸ hfd), send_reactor]
      simp [Reactor.addWrite, Epoll.add, hfd]

/-- What is pending registers write events. -/
theorem sends_addWriteIfPending (hl : s.Live) : Sends s s.addWriteIfPending ∧
    (s.addWriteIfPending.conn.writeBuffer ≠ [] → s.addWriteIfPending.interest.wr = true) := by
  unfold addWriteIfPending
  split
  · next hempty => exact ⟨.refl hl, fun h => absurd hempty h⟩
  · exact ⟨(sends_addWrite hl).1, fun _ => (sends_addWrite hl).2⟩

/-- Whether a request asks for the connection to be closed. -/
def asksClose (req : Request) : Bool := req.getHeader (str "Connection") = str "close"

/-- Giving up read interest leaves write interest alone. -/
theorem stopReading_interest (hl : s.Live) : s.stopReading.Live ∧
    s.stopReading.interest.rd = false ∧ s.stopReading.interest.wr = s.interest.wr := by
  obtain ⟨hlive, hold⟩ := Reactor.Live.removeReadHandler hl
  have hi : s.stopReading.interest = s.interest.without .RD := hold
  exact ⟨hlive, by simp [hi, Mask.without, Mask.RD], by simp [hi, Mask.without, Mask.RD]⟩

/-- Handling a request. -/
theorem handleRequest_interest (hl : s.Live) (server : HttpServer) (env : Env) (req : Request) :
    (s.handleRequest server env req).Live ∧
    (s.handleRequest server env req).interest.rd = (!asksClose req && s.interest.rd) ∧
    (s.interest.wr = true → (s.handleRequest server env req).interest.wr = true) := by
  have hstop : ∀ t : Session, t = (if req.getHeader (str "Connection") = str "close" then
      s.stopReading else s) → t.Live ∧ t.interest.rd = (!asksClose req && s.interest.rd) ∧
      t.interest.wr = s.interest.wr := by
    rintro t rfl
    unfold asksClose
    split
    · next hclose =>
        obtain ⟨hlive, hrd, hwr⟩ := stopReading_interest hl
        exact ⟨hlive, by simp [hrd, hclose], hwr⟩
    · next hclose => exact ⟨hl, by simp [hclose], rfl⟩
  unfold handleRequest
  simp only
  generalize ht : (if req.getHeader (str "Connection") = str "close" then
    s.stopReading else s) = t
  obtain ⟨hlive, hrd, hwr⟩ := hstop t ht.symm
  rw [← hrd, ← hwr]
  generalize hu : ({ t with trace := t.trace ++ [Event.dispatched (server.route req.uri) req] } :
    Session) = u
  have hulive : u.Live := hu ▸ hlive
  have hui : u.interest = t.interest := hu ▸ rfl
  -- a handler does nothing but send
  have hrun : ∀ a : Answer, (u.runHandler a).Live ∧
      (u.runHandler a).interest.rd = t.interest.rd ∧
      (t.interest.wr = true → (u.runHandler a).interest.wr = true) := by
    intro a
    have h := sends_foldl_send hulive a.now
    rw [← hui]
    exact ⟨h.live, h.rd, h.wr⟩
  cases server.route req.uri with
  | notFound => exact ⟨hulive, congrArg Mask.rd hui, fun h => (congrArg Mask.wr hui).trans h⟩
  | handler key => exact hrun _
  | pattern key => exact hrun _
  | general => exact hrun _

/-- The interest in reading after a status of the parser has been acted on. -/
def readsOn (status : ParseStatus) (req : Request) (rd : Bool) : Bool :=
  match status with
  | .allread => !asksClose req && rd
  | .needmore => true
  | .corrupted | .canceld => false

/-- **Acting on a status of the parser.** -/
theorem act_interest (hl : s.Live) (server : HttpServer) (env : Env) (status : ParseStatus)
    (req : Request) : (s.act server env status req).1.Live ∧
    (s.act server env status req).1.interest.rd = readsOn status req s.interest.rd ∧
    (s.interest.wr = true → (s.act server env status req).1.interest.wr = true) := by
  cases status with
  | allread => exact handleRequest_interest hl server env req
  | needmore =>
      obtain ⟨hlive, hold⟩ := Reactor.Live.addRead hl
      have hi : s.addRead.interest = s.interest.or .RD := hold
      exact ⟨hlive, by simp [act, hi, readsOn, Mask.or, Mask.RD],
        fun h => by simp [act, hi, h, Mask.or]⟩
  | corrupted =>
      obtain ⟨hlive, hrd, hwr⟩ := stopReading_interest hl
      have h : Sends s.stopReading (s.stopReading.sendReply (env.clock s.trace.length)
          httpBadrequest (str "bad request") (str "400 Bad Request")) :=
        (sends_send hlive (.reply _ _ _ _)).1
      exact ⟨h.live, h.rd.trans hrd, fun hs => h.wr (hwr.trans hs)⟩
  | canceld =>
      obtain ⟨hlive, hrd, hwr⟩ := stopReading_interest hl
      exact ⟨hlive, hrd, fun hs => hwr.trans hs⟩

/-- The status of the connection after a status of the parser has been acted on. -/
theorem act_status (s : Session) (server : HttpServer) (env : Env) (status : ParseStatus)
    (req : Request) : (s.act server env status req).1.conn.status =
      match status with
      | .allread => if asksClose req then .closing else s.conn.status
      | .needmore => s.conn.status
      | .corrupted | .canceld => .closing := by
  cases status with
  | allread =>
      have hconn := (s.handleRequest_spec server env req).2
      simp only [act, popRequest, hconn, afterClose, asksClose, decide_eq_true_eq]
      split <;> rfl
  | needmore => rfl
  | corrupted =>
      have h := (appends_sendReply s.stopReading (env.clock s.trace.length) httpBadrequest
        (str "bad request") (str "400 Bad Request")).conn
      simp only [act, h]
      rfl
  | canceld => rfl

/-! ## When `parse_request` returns -/

/-- Whether the loop of `parse_request` comes to an incomplete message after it has been asked to
close the connection. -/
def partialAfterClose : ℕ → Bool → List Request → Str → Bool
  | 0, _, _, _ => false
  | fuel + 1, closing, requests, buf =>
      if buf = [] then false
      else
        match (front requests).parse buf with
        | .ok (.allread, req, rest) =>
            partialAfterClose fuel (closing || asksClose req) requests.tail rest
        | .ok (.needmore, _, _) => closing
        | _ => false

/-- One round that has been completed. -/
def round (s : Session) (server : HttpServer) (env : Env) (p : Parsed) : Session :=
  ((s.parsed p.2.1 p.2.2).act server env p.1 p.2.1).1.addWriteIfPending

/-- **One round**: the interest it leaves. -/
theorem round_interest (hl : s.Live) (server : HttpServer) (env : Env) (p : Parsed) :
    (s.round server env p).Live ∧
    (s.round server env p).interest.rd = readsOn p.1 p.2.1 s.interest.rd ∧
    (s.interest.wr = true → (s.round server env p).interest.wr = true) ∧
    ((s.round server env p).conn.writeBuffer ≠ [] → (s.round server env p).interest.wr = true) := by
  have hparsed : (s.parsed p.2.1 p.2.2).Live := hl
  obtain ⟨hlive, hrd, hwr⟩ := act_interest hparsed server env p.1 p.2.1
  obtain ⟨hsends, hpending⟩ := sends_addWriteIfPending hlive
  exact ⟨hsends.live, hsends.rd.trans hrd, fun h => hsends.wr (hwr h), hpending⟩

/-- One round: the object it leaves. -/
theorem round_conn (s : Session) (server : HttpServer) (env : Env) (p : Parsed) :
    (s.round server env p).conn = ((s.parsed p.2.1 p.2.2).act server env p.1 p.2.1).1.conn := by
  rw [round, addWriteIfPending_conn]

/-- A round that has handled a request. -/
theorem round_allread (s : Session) (server : HttpServer) (env : Env) (req : Request) (rest : Str) :
    (s.round server env (.allread, req, rest)).conn.requests = s.conn.requests.tail ∧
    (s.round server env (.allread, req, rest)).conn.readBuffer = rest ∧
    (s.round server env (.allread, req, rest)).conn.writeBuffer =
      s.conn.writeBuffer ++ written (handled server env s.trace.length req) := by
  have hconn := ((s.parsed req rest).handleRequest_spec server env req).2
  rw [round_conn]
  simp only [act, popRequest, hconn, afterClose_readBuffer, afterClose_requests]
  exact ⟨rfl, rfl, rfl⟩

/-- A round of the loop, by the status of the parser. -/
theorem parseLoop_round {server : HttpServer} {env : Env} {fuel : ℕ}
    (h : parseLoop server env (fuel + 1) s = .ok s') (hbuf : s.conn.readBuffer ≠ []) :
    ∃ p, (front s.conn.requests).parse s.conn.readBuffer = .ok p ∧
      ((p.1 = .allread ∧ parseLoop server env fuel (s.round server env p) = .ok s') ∨
        ((p.1 = .needmore ∨ p.1 = .corrupted) ∧ s' = s.round server env p)) := by
  rw [parseLoop_succ, if_neg hbuf] at h
  obtain ⟨⟨status, req, rest⟩, hparse, h⟩ := bind_eq_ok.mp h
  refine ⟨_, hparse, ?_⟩
  cases status with
  | allread => exact .inl ⟨rfl, h⟩
  | needmore => exact .inr ⟨.inl rfl, (Except.ok.inj h).symm⟩
  | corrupted => exact .inr ⟨.inr rfl, (Except.ok.inj h).symm⟩
  | canceld => exact absurd rfl (Request.parse_advances hparse).1

/-- **No reading after closing.** Where no incomplete message comes after a request to close, the
connection does not go on reading once it is closing. -/
theorem parseLoop_quiet {server : HttpServer} {env : Env} {fuel : ℕ}
    (h : parseLoop server env fuel s = .ok s') (hl : s.Live)
    (hq : s.conn.status = .closing → s.interest.rd = false)
    (hp : partialAfterClose fuel (s.conn.status = .closing) s.conn.requests s.conn.readBuffer =
      false) :
    s'.Live ∧ (s'.conn.status = .closing → s'.interest.rd = false) := by
  induction fuel generalizing s with
  | zero =>
      obtain rfl := Except.ok.inj h
      exact ⟨hl, hq⟩
  | succ fuel ih =>
      by_cases hbuf : s.conn.readBuffer = []
      · rw [parseLoop_succ, if_pos hbuf] at h
        obtain rfl := Except.ok.inj h
        exact ⟨hl, hq⟩
      · obtain ⟨⟨status, req, rest⟩, hparse, hround⟩ := parseLoop_round h hbuf
        rw [partialAfterClose, if_neg hbuf, hparse] at hp
        obtain ⟨hlive, hrd, -, -⟩ := round_interest hl server env (status, req, rest)
        have hstatus := act_status (s.parsed req rest) server env status req
        rw [← round_conn s server env (status, req, rest)] at hstatus
        rcases hround with ⟨rfl, hgo⟩ | ⟨rfl | rfl, rfl⟩
        · obtain ⟨hrequests, hbuffer, -⟩ := round_allread s server env req rest
          refine ih hgo hlive ?_ ?_
          · rw [hstatus, hrd]
            simp only [readsOn]
            intro hc
            cases hclose : asksClose req with
            | true => rfl
            | false => simpa [hclose] using hq (by simpa [hclose, parsed] using hc)
          · rw [hrequests, hbuffer, hstatus]
            simp only at hp
            rw [← hp]
            congr 1
            cases hclose : asksClose req <;> simp [parsed]
        · refine ⟨hlive, fun hc => ?_⟩
          rw [hstatus] at hc
          exact absurd hc (of_decide_eq_false hp)
        · exact ⟨hlive, fun _ => hrd⟩

/-- Where every handler replies, handling a request appends something. -/
theorem written_handled_ne {server : HttpServer} {env : Env} (hr : env.Replies) (n : ℕ)
    (req : Request) : written (handled server env n req) ≠ [] := by
  have hroute : ∀ route, written (eventsOf (env.answer n route req).now) ≠ [] := fun route =>
    hr n route req
  unfold handled
  simp only [written_dispatched]
  cases server.route req.uri with
  | notFound =>
      rw [written_appended, Request.wire, Request.sendTo_snd]
      simp [crlf]
  | handler key => exact hroute _
  | pattern key => exact hroute _
  | general => exact hroute _

/-- **A way on.** Where every handler replies, the connection is left with interest in writing when
it is closing, and in reading when it is not. -/
theorem parseLoop_attended {server : HttpServer} {env : Env} {fuel : ℕ} (hr : env.Replies)
    (h : parseLoop server env fuel s = .ok s') (hl : s.Live)
    (hc : s.conn.status = .closing → s.interest.wr = true)
    (ho : s.conn.status = .connected → s.interest.rd = true) :
    (s'.conn.status = .closing → s'.interest.wr = true) ∧
      (s'.conn.status = .connected → s'.interest.rd = true) := by
  induction fuel generalizing s with
  | zero =>
      obtain rfl := Except.ok.inj h
      exact ⟨hc, ho⟩
  | succ fuel ih =>
      by_cases hbuf : s.conn.readBuffer = []
      · rw [parseLoop_succ, if_pos hbuf] at h
        obtain rfl := Except.ok.inj h
        exact ⟨hc, ho⟩
      · obtain ⟨⟨status, req, rest⟩, -, hround⟩ := parseLoop_round h hbuf
        obtain ⟨hlive, hrd, hwr, hpending⟩ := round_interest hl server env (status, req, rest)
        have hstatus := act_status (s.parsed req rest) server env status req
        rw [← round_conn s server env (status, req, rest)] at hstatus
        rcases hround with ⟨rfl, hgo⟩ | ⟨rfl | rfl, rfl⟩
        · -- the reply is pending
          obtain ⟨-, -, hbuffer⟩ := round_allread s server env req rest
          have hw : (s.round server env (.allread, req, rest)).interest.wr = true :=
            hpending (by rw [hbuffer]; simp [written_handled_ne hr])
          refine ih hgo hlive (fun _ => hw) ?_
          rw [hstatus, hrd]
          simp only [readsOn]
          intro hconn
          cases hclose : asksClose req with
          | true => simp [hclose] at hconn
          | false => simpa using ho (by simpa [hclose, parsed] using hconn)
        · exact ⟨fun hs => hwr (hc (hstatus.symm.trans hs)), fun _ => hrd⟩
        · -- the reply to a corrupted message is pending
          have happ := (appends_sendReply (s.parsed req rest).stopReading
            (env.clock (s.parsed req rest).trace.length) httpBadrequest (str "bad request")
            (str "400 Bad Request")).conn
          refine ⟨fun _ => hpending ?_, fun hs => ?_⟩
          · rw [round_conn]
            simp only [act, happ, written_appended, Request.wire, Request.sendTo_snd]
            simp [crlf]
          · rw [hstatus] at hs
            cases hs

end Session

end Libio
