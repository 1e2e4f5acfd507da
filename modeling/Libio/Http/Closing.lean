import Libio.Http.Interest
import Libio.Http.Pipeline

/-! # What is served after closing has begun

A connection begins to close when a request asks for that, or when the parser rejects what was read.
`parse_request` then goes on with what is still buffered. What it does is a list of deeds, one for
each call of the parser (`deeds_of_step`), and a worker is taken together with the deeds done for
each connection since it was last closed (`Logged`). No later call
serves a connection that is closing, for it has no read handler any more (`Wired.stopped_step`), and
so nothing is served exactly when each call finds nothing to serve behind the request that asked
(`nothing_served_iff`). -/

namespace Libio

/-- What one round of `parse_request` does: it handles a request, it adds read interest, or it stops
reading for a message that it cannot read. -/
inductive Deed
  | handle (route : Route) (req : Request)
  | addRead
  | stop

namespace Deed

/-- Whether closing has begun with it. -/
def begins : Deed → Bool
  | .handle _ req => Session.asksClose req
  | .addRead => false
  | .stop => true

/-- Whether it dispatches a request to a handler or asks for more to read. A request that no handler
takes is only answered. -/
def serves : Deed → Bool
  | .handle route _ => route ≠ .notFound
  | .addRead => true
  | .stop => false

/-- The request it handles. -/
def request : Deed → Option Request
  | .handle _ req => some req
  | .addRead | .stop => none

/-- The interest in reading it leaves. -/
def reads (rd : Bool) : Deed → Bool
  | .handle _ req => !Session.asksClose req && rd
  | .addRead => true
  | .stop => false

end Deed

/-- Nothing is served once closing has begun. -/
def NothingServed (log : List Deed) : Prop := log.Pairwise fun d d' => d.begins → d'.serves = false

instance (log : List Deed) : Decidable (NothingServed log) :=
  inferInstanceAs (Decidable (log.Pairwise _))

/-- Behind the deed with which closing begins nothing may be served. -/
theorem nothingServed_cons {d : Deed} {log : List Deed} :
    NothingServed (d :: log) ↔
      if d.begins = true then ∀ d' ∈ log, d'.serves = false else NothingServed log := by
  unfold NothingServed
  rw [List.pairwise_cons]
  split
  · next hb =>
      refine ⟨fun h d' hd' => h.1 d' hd' hb, fun h => ⟨fun d' hd' _ => h d' hd', ?_⟩⟩
      exact List.pairwise_of_forall_mem_list fun _ _ d' hd' _ => h d' hd'
  · next hb => exact and_iff_right fun _ _ hbegins => absurd hbegins hb

/-- What is done before closing begins does not matter for what comes later. -/
theorem nothingServed_append {log log' : List Deed} (h : NothingServed log)
    (hb : ∀ d ∈ log, d.begins = false) : NothingServed (log ++ log') ↔ NothingServed log' := by
  refine ⟨fun hl => (List.pairwise_append.mp hl).2.1, fun hl => ?_⟩
  refine List.pairwise_append.mpr ⟨h, hl, fun d hd d' _ hbegins => ?_⟩
  rw [hb d hd] at hbegins
  cases hbegins

namespace Session

variable {s s' : Session} {server : HttpServer} {env : Env} {fuel : ℕ}

/-! ## The deeds of a call -/

/-- What the loop of `parse_request` does with a queue of requests and a read buffer. -/
def deeds (server : HttpServer) : ℕ → List Request → Str → List Deed
  | 0, _, _ => []
  | fuel + 1, requests, buf =>
      if buf = [] then []
      else
        match (front requests).parse buf with
        | .ok (.allread, req, rest) =>
            .handle (server.route req.uri) req :: deeds server fuel requests.tail rest
        | .ok (.needmore, _, _) => [.addRead]
        | .ok (.corrupted, _, _) | .ok (.canceld, _, _) => [.stop]
        -- an exception leaves the loop
        | .error _ => []

/-- What `parse_request` does. -/
def requestDeeds (server : HttpServer) (c : HttpConnection) : List Deed :=
  if c.readBuffer = [] then if c.status = .connected then [.addRead] else []
  else deeds server (c.readBuffer.length + c.requests.length) c.requests c.readBuffer

/-- There is nothing to do with an empty buffer. -/
theorem deeds_nil : deeds server fuel s.conn.requests [] = [] := by
  cases fuel <;> simp [deeds]

/-- The deeds of the rounds after a request has been handled. -/
theorem deeds_allread (env : Env) {req : Request} {rest : Str} (hbuf : s.conn.readBuffer ≠ [])
    (hparse : (front s.conn.requests).parse s.conn.readBuffer = .ok (.allread, req, rest)) :
    deeds server (fuel + 1) s.conn.requests s.conn.readBuffer =
      .handle (server.route req.uri) req ::
        deeds server fuel (s.round server env (.allread, req, rest)).conn.requests
          (s.round server env (.allread, req, rest)).conn.readBuffer := by
  obtain ⟨hrequests, hbuffer, -⟩ := round_allread s server env req rest
  rw [hrequests, hbuffer, deeds, if_neg hbuf, hparse]

/-- The trace of a round: a request is dispatched where one is complete. -/
theorem dispatchedIn_round (s : Session) (server : HttpServer) (env : Env) (p : Parsed) :
    dispatchedIn (s.round server env p).trace =
      dispatchedIn s.trace ++ if p.1 = .allread then [p.2.1] else [] := by
  obtain ⟨status, req, rest⟩ := p
  unfold round
  rw [addWriteIfPending_trace]
  cases status with
  | allread =>
      have htrace := ((s.parsed req rest).handleRequest_spec server env req).1
      simp only [act, popRequest, htrace, dispatchedIn_append, dispatchedIn_handled]
      rfl
  | needmore => simp [act, addRead, parsed]
  | corrupted =>
      have htrace := (appends_sendReply (s.parsed req rest).stopReading
        (env.clock (s.parsed req rest).trace.length) httpBadrequest (str "bad request")
        (str "400 Bad Request")).trace
      simp only [act, htrace, dispatchedIn_append]
      simp [stopReading, parsed, dispatchedIn]
  | canceld => simp [act, stopReading, parsed]

/-- **The requests that are dispatched** are those of the deeds. -/
theorem dispatchedIn_parseLoop (h : parseLoop server env fuel s = .ok s') :
    dispatchedIn s'.trace = dispatchedIn s.trace ++
      (deeds server fuel s.conn.requests s.conn.readBuffer).filterMap Deed.request := by
  induction fuel generalizing s with
  | zero =>
      obtain rfl := Except.ok.inj h
      simp [deeds]
  | succ fuel ih =>
      by_cases hbuf : s.conn.readBuffer = []
      · rw [parseLoop_succ, if_pos hbuf] at h
        obtain rfl := Except.ok.inj h
        simp [hbuf, deeds_nil]
      · obtain ⟨⟨status, req, rest⟩, hparse, hround⟩ := parseLoop_round h hbuf
        have htrace := dispatchedIn_round s server env (status, req, rest)
        rcases hround with ⟨rfl, hgo⟩ | ⟨rfl | rfl, rfl⟩
        · rw [ih hgo, htrace, deeds_allread env hbuf hparse, List.append_assoc]
          rfl
        · rw [htrace, deeds, if_neg hbuf, hparse]
          rfl
        · rw [htrace, deeds, if_neg hbuf, hparse]
          rfl

/-- **The interest in reading** that a call leaves is that of its deeds. -/
theorem interest_parseLoop (h : parseLoop server env fuel s = .ok s') (hl : s.Live) :
    s'.interest.rd = (deeds server fuel s.conn.requests s.conn.readBuffer).foldl Deed.reads
      s.interest.rd := by
  induction fuel generalizing s with
  | zero =>
      obtain rfl := Except.ok.inj h
      rfl
  | succ fuel ih =>
      by_cases hbuf : s.conn.readBuffer = []
      · rw [parseLoop_succ, if_pos hbuf] at h
        obtain rfl := Except.ok.inj h
        simp [hbuf, deeds_nil]
      · obtain ⟨⟨status, req, rest⟩, hparse, hround⟩ := parseLoop_round h hbuf
        obtain ⟨hlive, hrd, -, -⟩ := round_interest hl server env (status, req, rest)
        rcases hround with ⟨rfl, hgo⟩ | ⟨rfl | rfl, rfl⟩
        · rw [ih hgo hlive, hrd, deeds_allread env hbuf hparse]
          rfl
        · rw [hrd, deeds, if_neg hbuf, hparse]
          rfl
        · rw [hrd, deeds, if_neg hbuf, hparse]
          rfl

/-! ## Without a read handler -/

/-- The channel of the descriptor has no read handler. -/
def Stopped (s : Session) : Prop := ∀ c, s.reactor.channels s.conn.fd = some c → c.readcb = none

/-- What a stopped connection does leaves it stopped. -/
theorem Works.stopped (h : Works s s') (hs : s.Stopped) : s'.Stopped := by
  unfold Stopped
  rw [h.fd]
  exact h.reactor.readcb_none hs

/-- A connection that gives up read interest is stopped. -/
theorem stopped_stopReading (s : Session) : s.stopReading.Stopped := by
  intro c hc
  simp only [stopReading, Reactor.removeReadHandler] at hc
  split at hc
  · next hnone =>
      rw [hnone] at hc
      cases hc
  · split at hc <;>
    · simp only [Reactor.removeRead, Reactor.setChannel, Function.update_self] at hc
      exact Option.some.inj hc ▸ rfl

/-- **A round with which closing begins** leaves no read handler. -/
theorem stopped_round {p : Parsed}
    (hp : p.1 = .allread ∧ asksClose p.2.1 = true ∨ p.1 = .corrupted) :
    (s.round server env p).Stopped := by
  obtain ⟨status, req, rest⟩ := p
  refine (works_addWriteIfPending _).stopped ?_
  rcases hp with ⟨rfl, hclose⟩ | rfl
  · -- what the handler does comes after the read handler has been removed
    have hworks := works_dispatch (s.parsed req rest) server env req
    rw [if_pos (of_decide_eq_true hclose)] at hworks
    exact hworks.stopped (stopped_stopReading _)
  · exact (works_sendReply _ _ _ _ _).stopped (stopped_stopReading _)

/-- **A call in which closing begins** leaves no read handler. -/
theorem stopped_parseLoop (h : parseLoop server env fuel s = .ok s')
    (hb : ∃ d ∈ deeds server fuel s.conn.requests s.conn.readBuffer, d.begins = true) :
    s'.Stopped := by
  induction fuel generalizing s with
  | zero => simp [deeds] at hb
  | succ fuel ih =>
      by_cases hbuf : s.conn.readBuffer = []
      · simp [hbuf, deeds_nil] at hb
      · obtain ⟨⟨status, req, rest⟩, hparse, hround⟩ := parseLoop_round h hbuf
        rcases hround with ⟨rfl, hgo⟩ | ⟨rfl | rfl, rfl⟩
        · rw [deeds_allread env hbuf hparse] at hb
          obtain ⟨d, hd, hbegins⟩ := hb
          rcases List.mem_cons.mp hd with rfl | hd
          · -- closing begins here, and the rounds that follow do not undo it
            exact (works_parseLoop hgo).stopped (stopped_round (.inl ⟨rfl, hbegins⟩))
          · exact ih hgo ⟨d, hd, hbegins⟩
        · rw [deeds, if_neg hbuf, hparse] at hb
          obtain ⟨d, hd, hbegins⟩ := hb
          obtain rfl := List.mem_singleton.mp hd
          cases hbegins
        · exact stopped_round (.inr rfl)

/-! ## The condition -/

/-- Whether there is nothing to serve: complete requests that no handler takes, and behind them
nothing, or what the parser does not accept. -/
def unserved (server : HttpServer) : ℕ → List Request → Str → Bool
  | 0, _, _ => true
  | fuel + 1, requests, buf =>
      if buf = [] then true
      else
        match (front requests).parse buf with
        | .ok (.allread, req, rest) =>
            server.route req.uri = .notFound && unserved server fuel requests.tail rest
        | .ok (.needmore, _, _) => false
        | _ => true

/-- Whether there is nothing to serve behind the first request that asks to close the connection. -/
def closesLast (server : HttpServer) : ℕ → List Request → Str → Bool
  | 0, _, _ => true
  | fuel + 1, requests, buf =>
      if buf = [] then true
      else
        match (front requests).parse buf with
        | .ok (.allread, req, rest) =>
            if asksClose req then unserved server fuel requests.tail rest
            else closesLast server fuel requests.tail rest
        | _ => true

/-- Nothing is served where no deed serves. -/
theorem unserved_iff {requests : List Request} {buf : Str} :
    unserved server fuel requests buf = true ↔
      ∀ d ∈ deeds server fuel requests buf, d.serves = false := by
  induction fuel generalizing requests buf with
  | zero => simp [unserved, deeds]
  | succ fuel ih =>
      by_cases hbuf : buf = []
      · simp [unserved, deeds, hbuf]
      · rw [unserved, deeds, if_neg hbuf, if_neg hbuf]
        cases hparse : (front requests).parse buf with
        | error e => simp
        | ok p =>
            obtain ⟨status, req, rest⟩ := p
            cases status <;> simp [Deed.serves, ih]

/-- **One call** serves nothing after closing has begun exactly when there is nothing to serve. -/
theorem closesLast_iff {requests : List Request} {buf : Str} :
    closesLast server fuel requests buf = true ↔
      NothingServed (deeds server fuel requests buf) := by
  induction fuel generalizing requests buf with
  | zero => simp [closesLast, deeds, NothingServed]
  | succ fuel ih =>
      by_cases hbuf : buf = []
      · simp [closesLast, deeds, hbuf, NothingServed]
      · rw [closesLast, deeds, if_neg hbuf, if_neg hbuf]
        cases hparse : (front requests).parse buf with
        | error e => simp [NothingServed]
        | ok p =>
            obtain ⟨status, req, rest⟩ := p
            cases status with
            | allread =>
                simp only [nothingServed_cons, Deed.begins, ← ih, ← unserved_iff]
                split <;> rfl
            | needmore | corrupted | canceld => simp [NothingServed]

end Session

namespace HttpThread

variable {s t : HttpThread} {server : HttpServer}

/-- The channel of an object's descriptor has no read handler. -/
def Stopped (s : HttpThread) (p : ℕ) : Prop :=
  0 < (s.conns p).fd ∧ ∀ c, s.reactor.channels (s.conns p).fd = some c → c.readcb = none

/-- An object without a read handler is not read from. -/
theorem Wired.not_stopped_of_due (h : Wired s) {p : ℕ} {rest : List (ℤ × Dir)}
    (hp : s.nextCallback .read = some (some p, rest)) : ¬s.Stopped p := by
  rintro ⟨-, hs⟩
  have hserved := h.nextCallback hp
  unfold HttpThread.nextCallback at hp
  split at hp
  · cases hp
  · next fd d rest' _ =>
      split at hp
      · obtain ⟨c, hc, hcb⟩ := Option.map_eq_some_iff.mp hp
        obtain ⟨hcb, -⟩ := Prod.mk.inj hcb
        cases hash : s.hashConnections fd with
        | none => rw [h.noChannel fd hash] at hc; cases hc
        | some q =>
            -- the callback that is due is the read handler of the object at the descriptor
            obtain ⟨c', hc', -, hr⟩ := h.channel fd q hash
            obtain rfl := Option.some.inj (hc'.symm.trans hc)
            have hread : c'.readcb = some p := hcb
            obtain rfl : q = p := by
              rcases hr with hr | hr
              · exact Option.some.inj (hr.symm.trans hread)
              · rw [hr] at hread
                cases hread
            rw [hs c' ((h.served fd q hash).2.1.symm ▸ hc)] at hread
            cases hread
      · cases hp

/-- Open objects have descriptors of their own. -/
theorem Wired.fd_ne (h : Wired s) {p q : ℕ} (hq : 0 < (s.conns q).fd) (hqp : q ≠ p) :
    (s.conns q).fd ≠ (s.conns p).fd := by
  intro he
  have hash := h.hashed q hq
  rw [he, h.hashed p (he ▸ hq)] at hash
  exact hqp (Option.some.inj hash).symm

/-- Serving another client leaves it stopped. -/
theorem Serves.stopped (h : Wired s) {p q : ℕ} (hs : Serves s t p) (hq : s.Stopped q) :
    t.Stopped q := by
  unfold Stopped
  by_cases hqp : q = p
  · subst hqp
    rw [hs.fd]
    exact ⟨hq.1, hs.reactor.readcb_none hq.2⟩
  · rw [hs.conns q hqp, hs.reactor.channels _ (h.fd_ne hq.1 hqp)]
    exact hq

/-- Closing an object takes no other its place. -/
theorem Wired.stopped_close (h : Wired s) {p q : ℕ} (hpos : 0 < (s.conns p).fd)
    (hq : s.Stopped q) : ((s.close p).conns q).status = .closed ∨ (s.close p).Stopped q := by
  rw [close_eq hpos (h.hashed p hpos)]
  by_cases hqp : q = p
  · subst hqp
    exact .inl (by simp [closedConn])
  · refine .inr ?_
    unfold Stopped
    simp only [Function.update_of_ne hqp, Function.update_of_ne (h.fd_ne hq.1 hqp)]
    exact hq

/-- So does the acceptance of a client. -/
theorem Wired.stopped_accept (h : Wired s) {fd : ℤ} {q : ℕ} (ha : s.Acceptable fd)
    (hq : s.Stopped q) : (s.accept fd).Stopped q := by
  have hne : (s.conns q).fd ≠ fd := by
    rintro rfl
    have hash := h.hashed q hq.1
    rw [ha.2.1] at hash
    cases hash
  have hnext : q ≠ s.nextConn := by
    rintro rfl
    exact absurd hq.1 (not_lt.mpr h.nextConn.1)
  rw [h.accept_eq fd, openReactor_eq]
  unfold Stopped
  simp only [Function.update_of_ne hnext, Function.update_of_ne hne]
  exact hq

/-- **Every step**: an object without a read handler has none until it is closed. -/
theorem Wired.stopped_step (h : Wired s) {e : ThreadEvent} (ht : s.step server e = some t) {q : ℕ}
    (hq : s.Stopped q) : (t.conns q).status = .closed ∨ t.Stopped q := by
  cases h.stepped ht with
  | arrive hpos hfree => exact .inr hq
  | active _ active => exact .inr hq
  | wakeup =>
      have htake : Stopped { s with clientQueue := [] } q := hq
      exact .inr (h.takeQueue.foldl_accept (P := fun s => s.Stopped q)
        (fun _ _ hw ha hs => hw.stopped_accept ha hs) rfl h.queue h.queue_nodup htake).2
  | @read _ _ _ rest _ hnext hash hposs ht =>
      exact .inr ((serves_readHandler ht).stopped (h.setActive rest) hq)
  | @write answer p rest hnext hash =>
      have hw := h.setActive rest
      have hserved := h.served _ p hash
      rcases writeHandler_cases (s := s.setActive rest) p answer with ⟨-, -, heq⟩ | hs
      · have hs := serves_setReactor (s := s.setActive rest) (p := p) Reactor.touches_removeWrite
        -- the interest is removed first, then the object is closed
        rw [heq]
        exact (hw.serves hs hserved.2.2.2.2).stopped_close hserved.1 (hs.stopped hw hq)
      · exact .inr (hs.stopped hw hq)
  | @timer i d hd => exact .inr ((serves_runTimer d).stopped (h.dropTimer i) hq)

/-! ## The deeds of a step -/

/-- What `parse_request` does for an object when an event is taken up. -/
def deeds (s : HttpThread) (server : HttpServer) (p : ℕ) : ThreadEvent → List Deed
  | .read _ (.data bytes) =>
      if s.due .read = some p then
        Session.requestDeeds server
          { s.conns p with readBuffer := (s.conns p).readBuffer ++ bytes }
      else []
  | _ => []

/-- A read handler takes up an event. Where there is no step, an exception has left it. -/
def Taken (s : HttpThread) : ThreadEvent → Prop
  | .read _ answer => answer.Possible ∧ s.due .read ≠ none
  | _ => False

instance (s : HttpThread) (e : ThreadEvent) : Decidable (s.Taken e) :=
  match e with
  | .read _ _ => inferInstanceAs (Decidable (_ ∧ _))
  | .arrive _ | .listen _ | .wakeup | .write _ | .timer _ => .isFalse id

/-- A step whose call of `parse_request` finds nothing to serve behind a request that asks to close
the connection. -/
def ClosesLast (s : HttpThread) (server : HttpServer) : ThreadEvent → Prop
  | .read _ (.data bytes) => ∀ p ∈ s.due .read,
      Session.closesLast server (((s.conns p).readBuffer ++ bytes).length +
        (s.conns p).requests.length) (s.conns p).requests ((s.conns p).readBuffer ++ bytes) = true
  | _ => True

instance (s : HttpThread) (server : HttpServer) (e : ThreadEvent) :
    Decidable (s.ClosesLast server e) :=
  match e with
  | .read _ (.data _) => inferInstanceAs (Decidable (∀ p ∈ s.due .read, _ = _))
  | .read _ .eof | .read _ .again | .read _ .error | .arrive _ | .listen _ | .wakeup | .write _
  | .timer _ => .isTrue trivial

/-- The step of a read handler. -/
theorem step_due {env : Env} {answer : ReadAnswer} {p : ℕ} {rest : List (ℤ × Dir)}
    (hnext : s.nextCallback .read = some (some p, rest)) :
    s.step server (.read env answer) =
      if answer.Possible then (s.setActive rest).readHandler server env p answer else none := by
  simp only [step, hnext]

/-- What is done in a step, is done for the object whose descriptor is ready. -/
theorem deeds_ne {p : ℕ} {e : ThreadEvent} (hp : s.deeds server p e ≠ []) :
    s.due .read = some p ∧ ∃ env bytes, e = .read env (.data bytes) := by
  unfold deeds at hp
  split at hp
  · next env bytes =>
      split at hp
      · next hdue => exact ⟨hdue, env, bytes, rfl⟩
      · exact absurd rfl hp
  · exact absurd rfl hp

/-- What is done for an object when bytes have been read. -/
theorem deeds_due {p : ℕ} (env : Env) {bytes : Str} (hdue : s.due .read = some p)
    (hbytes : bytes ≠ []) : s.deeds server p (.read env (.data bytes)) =
      Session.deeds server (((s.conns p).readBuffer ++ bytes).length + (s.conns p).requests.length)
        (s.conns p).requests ((s.conns p).readBuffer ++ bytes) := by
  have hbuf : (s.conns p).readBuffer ++ bytes ≠ [] := by simp [hbytes]
  simp only [deeds, if_pos hdue, Session.requestDeeds, if_neg hbuf]

/-- A step in which bytes are read: what the loop of `parse_request` leaves is taken over. -/
theorem step_data {env : Env} {bytes : Str} {p : ℕ} {rest : List (ℤ × Dir)}
    (hnext : s.nextCallback .read = some (some p, rest))
    (ht : s.step server (.read env (.data bytes)) = some t) :
    bytes ≠ [] ∧ ∃ u, Session.parseLoop server env
        (((s.conns p).readBuffer ++ bytes).length + (s.conns p).requests.length)
        ((s.setActive rest).session
          { s.conns p with readBuffer := (s.conns p).readBuffer ++ bytes }) = .ok u ∧
      t.conns p = u.conn ∧ t.reactor = u.reactor := by
  rw [step_due hnext] at ht
  obtain ⟨hposs, ht⟩ := Option.ite_none_right_eq_some.mp ht
  refine ⟨hposs.1, ?_⟩
  unfold HttpThread.readHandler at ht
  simp only at ht
  split at ht
  · cases ht
  · next u hu =>
      obtain rfl := Option.some.inj ht
      rw [Session.parseRequest, if_neg (by simp [session, hposs.1])] at hu
      exact ⟨u, hu, absorb_conns_self _ _ _ _, absorb_reactor _ _ _ _⟩

/-- **The deeds are what the worker does**: the requests that the read handler dispatches are theirs,
and so is the interest in reading that it leaves. -/
theorem deeds_of_step {env : Env} {bytes : Str} {p : ℕ} (hdue : s.due .read = some p)
    (ht : s.step server (.read env (.data bytes)) = some t) :
    ∃ u : Session, t.conns p = u.conn ∧ t.reactor = u.reactor ∧
      dispatchedIn u.trace =
        (s.deeds server p (.read env (.data bytes))).filterMap Deed.request ∧
      (s.reactor.Live (s.conns p).fd → (t.interest (s.conns p).fd).rd =
        (s.deeds server p (.read env (.data bytes))).foldl Deed.reads
          (s.interest (s.conns p).fd).rd) := by
  obtain ⟨rest, hnext⟩ := due_eq hdue
  obtain ⟨hbytes, u, hu, hconn, hreactor⟩ := step_data hnext ht
  rw [deeds_due env hdue hbytes]
  refine ⟨u, hconn, hreactor, Session.dispatchedIn_parseLoop hu, fun hl => ?_⟩
  have hlive : Reactor.Live (s.setActive rest).reactor (s.conns p).fd :=
    ⟨hl.pos, hl.client, hl.synced, hl.channel⟩
  have hfd : u.conn.fd = (s.conns p).fd := (Session.works_parseLoop hu).fd
  have hinterest := Session.interest_parseLoop hu hlive
  rw [Session.interest, hfd, ← hreactor] at hinterest
  exact hinterest

/-- **A step in which closing begins** leaves the object without a read handler. -/
theorem Wired.stopped_deeds (h : Wired s) {e : ThreadEvent} (ht : s.step server e = some t) {p : ℕ}
    (hb : ∃ d ∈ s.deeds server p e, d.begins = true) : t.Stopped p := by
  obtain ⟨d, hd, hbegins⟩ := hb
  obtain ⟨hdue, env, bytes, rfl⟩ := deeds_ne (List.ne_nil_of_mem hd)
  obtain ⟨rest, hnext⟩ := due_eq hdue
  obtain ⟨hbytes, u, hu, hconn, hreactor⟩ := step_data hnext ht
  rw [deeds_due env hdue hbytes] at hd
  have hfd : u.conn.fd = (s.conns p).fd := (Session.works_parseLoop hu).fd
  refine ⟨?_, ?_⟩
  · rw [hconn, hfd]
    exact (h.served _ p (h.nextCallback hnext)).1
  · rw [hconn, hreactor]
    exact Session.stopped_parseLoop hu ⟨d, hd, hbegins⟩

/-- An object for which something has been done is open behind the step. -/
theorem Wired.open_of_deeds (h : Wired s) {e : ThreadEvent} (ht : s.step server e = some t) {p : ℕ}
    (hp : s.deeds server p e ≠ []) : (t.conns p).status ≠ .closed := by
  obtain ⟨hdue, env, bytes, rfl⟩ := deeds_ne hp
  obtain ⟨rest, hnext⟩ := due_eq hdue
  rw [step_due hnext] at ht
  obtain ⟨-, ht⟩ := Option.ite_none_right_eq_some.mp ht
  rcases (serves_readHandler ht).status with hstatus | hstatus
  · rw [hstatus]
    exact (h.served _ p (h.nextCallback hnext)).2.2.1
  · rw [hstatus]
    decide

/-- Bytes that have been read are some. -/
def Gives (s : HttpThread) : ThreadEvent → Prop
  | .read _ answer => s.due .read ≠ none → answer.Possible
  | _ => True

/-- A step that reads bytes reads some. -/
theorem gives_of_step {e : ThreadEvent} (ht : s.step server e = some t) : s.Gives e := by
  cases e with
  | read env answer =>
      intro hdue
      obtain ⟨p, hp⟩ := Option.ne_none_iff_exists'.mp hdue
      obtain ⟨rest, hnext⟩ := due_eq hp
      rw [step_due hnext] at ht
      exact (Option.ite_none_right_eq_some.mp ht).1
  | arrive | listen | wakeup | write | timer => trivial

/-- So does an event that is taken up. -/
theorem gives_of_taken {e : ThreadEvent} (ht : s.Taken e) : s.Gives e := by
  cases e with
  | read env answer => exact fun _ => ht.1
  | arrive | listen | wakeup | write | timer => trivial

/-- **The condition**, as what a step does. -/
theorem closesLast_iff {e : ThreadEvent} (he : s.Gives e) :
    s.ClosesLast server e ↔ ∀ p, NothingServed (s.deeds server p e) := by
  have hnone : ∀ p, s.deeds server p e = [] → NothingServed (s.deeds server p e) := by
    intro p hp
    rw [hp]
    exact List.Pairwise.nil
  constructor
  · intro hc p
    by_cases hp : s.deeds server p e = []
    · exact hnone p hp
    · obtain ⟨hdue, env, bytes, rfl⟩ := deeds_ne hp
      have hbytes : bytes ≠ [] := (he (by rw [hdue]; exact Option.some_ne_none p)).1
      rw [deeds_due env hdue hbytes]
      exact Session.closesLast_iff.mp (hc p hdue)
  · intro hd
    unfold ClosesLast
    split
    · next env bytes =>
        intro p hdue
        have hbytes : bytes ≠ [] := (he (by rw [hdue]; exact Option.some_ne_none p)).1
        rw [Session.closesLast_iff, ← deeds_due env hdue hbytes]
        exact hd p
    · trivial

end HttpThread

/-! ## A worker and what it has done -/

/-- A worker, what has been done for each object since it was last closed, and whether an exception
has ended it. -/
structure Logged where
  worker : HttpThread
  log : ℕ → List Deed := fun _ => []
  down : Bool := false

namespace Logged

/-- A step of the worker, which is written down. What was done in a call that an exception leaves
counts. -/
def next (server : HttpServer) (s : Logged) (e : ThreadEvent) : Option Logged :=
  if s.down then none
  else
    match s.worker.step server e with
    | some t => some { s with
        worker := t
        log := fun p =>
          if (t.conns p).status = .closed then [] else s.log p ++ s.worker.deeds server p e }
    | none =>
        -- the worker ends in the middle of the call
        if s.worker.Taken e then some { s with
          log := fun p => s.log p ++ s.worker.deeds server p e
          down := true }
        else none

/-- A worker that has served nobody. -/
def start : Logged where
  worker := .start

/-- The worker with its log as a transition system. -/
def system (server : HttpServer) : Lts Logged ThreadEvent where
  init s := s = start
  step s e t := s.next server e = some t

variable {s t : Logged} {server : HttpServer}

/-- The invariant: the worker is wired, and an object for which closing has begun has no read
handler. -/
structure Sound (s : Logged) : Prop where
  wired : s.worker.Wired
  stopped : s.down = false → ∀ p, (∃ d ∈ s.log p, d.begins = true) → s.worker.Stopped p

/-- A worker without clients is sound. -/
theorem sound_start : start.Sound where
  wired := HttpThread.wired_start
  stopped _ _ h := by simp [start] at h

/-- A step of the worker, or a call that an exception leaves. -/
theorem next_cases {e : ThreadEvent} (ht : s.next server e = some t) : s.down = false ∧
    ((∃ u, s.worker.step server e = some u ∧ t = { s with
        worker := u
        log := fun p =>
          if (u.conns p).status = .closed then [] else s.log p ++ s.worker.deeds server p e }) ∨
      (s.worker.Taken e ∧ s.worker.step server e = none ∧ t = { s with
        log := fun p => s.log p ++ s.worker.deeds server p e
        down := true })) := by
  unfold next at ht
  split at ht
  · cases ht
  · next hdown =>
      refine ⟨Bool.eq_false_iff.mpr hdown, ?_⟩
      split at ht
      · next u hu => exact .inl ⟨u, hu, (Option.some.inj ht).symm⟩
      · next hnone =>
          obtain ⟨htaken, ht⟩ := Option.ite_none_right_eq_some.mp ht
          exact .inr ⟨htaken, hnone, (Option.some.inj ht).symm⟩

/-- **Each step keeps the invariant.** -/
theorem Sound.step (h : s.Sound) {e : ThreadEvent} (ht : s.next server e = some t) : t.Sound := by
  obtain ⟨hdown, ⟨u, hu, rfl⟩ | ⟨-, -, rfl⟩⟩ := next_cases ht
  · refine ⟨h.wired.step hu, fun _ p hb => ?_⟩
    simp only at hb
    split at hb
    · simp at hb
    · next hopen =>
        obtain ⟨d, hd, hbegins⟩ := hb
        -- closing began in an earlier step, or it begins in this one
        rcases List.mem_append.mp hd with hd | hd
        · exact (h.wired.stopped_step hu (h.stopped hdown p ⟨d, hd, hbegins⟩)).resolve_left hopen
        · exact h.wired.stopped_deeds hu ⟨d, hd, hbegins⟩
  · exact ⟨h.wired, fun hup => by cases hup⟩

/-- Closing has not begun for an object that is read from. -/
theorem Sound.not_begins (h : s.Sound) (hdown : s.down = false) {p : ℕ}
    (hdue : s.worker.due .read = some p) : ∀ d ∈ s.log p, d.begins = false := by
  intro d hd
  obtain ⟨rest, hnext⟩ := HttpThread.due_eq hdue
  by_contra hbegins
  exact h.wired.not_stopped_of_due hnext
    (h.stopped hdown p ⟨d, hd, (Bool.not_eq_false _).mp hbegins⟩)

/-- What a step adds to the log of an object is quiet where the step's deeds are. -/
theorem Sound.nothingServed_append (h : s.Sound) (hdown : s.down = false)
    (hs : ∀ p, NothingServed (s.log p)) (p : ℕ) (e : ThreadEvent) :
    NothingServed (s.log p ++ s.worker.deeds server p e) ↔
      NothingServed (s.worker.deeds server p e) := by
  by_cases hp : s.worker.deeds server p e = []
  · rw [hp, List.append_nil]
    exact iff_of_true (hs p) List.Pairwise.nil
  · exact Libio.nothingServed_append (hs p) (h.not_begins hdown (HttpThread.deeds_ne hp).1)

/-- **One step** serves no connection that is closing exactly when it meets the condition. -/
theorem Sound.nothingServed_step (h : s.Sound) (hs : ∀ p, NothingServed (s.log p))
    {e : ThreadEvent} (ht : s.next server e = some t) :
    (∀ p, NothingServed (t.log p)) ↔ s.worker.ClosesLast server e := by
  obtain ⟨hdown, ⟨u, hu, rfl⟩ | ⟨htaken, -, rfl⟩⟩ := next_cases ht
  · rw [HttpThread.closesLast_iff (HttpThread.gives_of_step hu)]
    refine forall_congr' fun p => ?_
    rw [← h.nothingServed_append hdown hs]
    simp only
    split
    · next hclosed =>
        -- an object that is closed in a step has done nothing in it
        have hp : s.worker.deeds server p e = [] := by
          by_contra hp
          exact h.wired.open_of_deeds hu hp hclosed
        rw [hp, List.append_nil]
        exact iff_of_true List.Pairwise.nil (hs p)
    · rfl
  · rw [HttpThread.closesLast_iff (HttpThread.gives_of_taken htaken)]
    exact forall_congr' fun p => h.nothingServed_append hdown hs p e

/-- **Nothing is served after closing has begun**, in every state of a run, exactly when each call of
`parse_request` in it finds nothing to serve behind a request that asks to close the connection. -/
theorem nothing_served_iff {es : List ThreadEvent} (h : (system server).Run start es s) :
    (∀ fs u, fs <+: es → (system server).Run start fs u → ∀ p, NothingServed (u.log p)) ↔
      ((system server).guard fun s e => s.worker.ClosesLast server e).Run start es s := by
  refine h.always_iff (I := Sound) (P := fun s => ∀ p, NothingServed (s.log p)) ?_ ?_ ?_ sound_start
    fun _ => List.Pairwise.nil
  · intro s e t t' ht ht'
    exact Option.some.inj (ht.symm.trans ht')
  · intro s e t hs _ ht _
    exact hs.step ht
  · intro s e t hs hp ht
    exact hs.nothingServed_step hp ht

/-- A client whose request behind the one that asks to be closed goes to a handler. -/
theorem not_nothing_served_pipelined : ¬ ∀ (server : HttpServer) (es : List ThreadEvent)
    (s : Logged), (system server).Run start es s → ∀ p, NothingServed (s.log p) := by
  intro h
  have hrun : ((HttpThread.readRun
      (HttpThread.closeRequest ++ str "GET /test HTTP/1.1\r\n\r\n")).foldlM (next ⟨[], true⟩)
        start).map (fun s => decide (NothingServed (s.log 0))) = some false := by
    decide +kernel
  obtain ⟨s, hs, hserved⟩ := Option.map_eq_some_iff.mp hrun
  exact of_decide_eq_false hserved
    (h ⟨[], true⟩ _ s (Lts.Run.of_foldlM (fun _ _ _ h => h) hs) 0)

/-- Of an incomplete request behind it more is read. -/
example : ¬NothingServed (Session.requestDeeds ⟨[], true⟩
    { status := .connected, readBuffer := HttpThread.closeRequest ++ str "G" }) := by
  decide +kernel

/-- A client whose bytes behind the request that asks to be closed are not a request. -/
theorem nothing_served_corrupted : ∃ s : Logged, (s.log 0).map Deed.begins = [true, true] ∧
    (∀ fs u, fs <+: HttpThread.readRun (HttpThread.closeRequest ++ str "G\r\n") →
      (system ⟨[], true⟩).Run start fs u → ∀ p, NothingServed (u.log p)) := by
  have hrun : ((HttpThread.readRun (HttpThread.closeRequest ++ str "G\r\n")).foldlM
      (fun (s : Logged) e => if s.worker.ClosesLast ⟨[], true⟩ e then s.next ⟨[], true⟩ e else none)
        start).map (fun s => (s.log 0).map Deed.begins) = some [true, true] := by
    decide +kernel
  obtain ⟨s, hs, hlog⟩ := Option.map_eq_some_iff.mp hrun
  have hrun := Lts.Run.of_foldlM
    (M := (system ⟨[], true⟩).guard fun s e => s.worker.ClosesLast ⟨[], true⟩ e)
    (fun _ _ _ h => Option.ite_none_right_eq_some.mp h) hs
  exact ⟨s, hlog, (nothing_served_iff hrun.of_guard).mpr hrun⟩

end Logged

end Libio
