import Libio.Http.Closing
import Libio.Http.Termination

/-! # A handler that closes its own connection

`close()` swaps the queue of requests away, and `parse_request` goes on to pop the request it has
just handled. Handlers here make any calls in any order; the loop is left without a first request
exactly where one of the requests that are complete in the read buffer is answered by a handler that
calls `close()` (`closesSafely_iff`). -/

namespace Libio

/-- What a call of `parse_request` should be like: it never needs the front of an empty queue, and
dispatches nothing behind a `close()`. -/
structure ClosesSafely (o : Ending × Serving) : Prop where
  queue : o.1 ≠ .emptyQueue
  order : o.2.record.Pairwise fun a b => a = .closed → b = .closed

section Answers

variable (server : HttpServer) (calls : ℕ → Route → Request → List HandlerCall)

/-- The calls made for a request; the 404 reply makes none. -/
def callsFor (n : ℕ) (req : Request) : List HandlerCall :=
  if server.route req.uri = .notFound then [] else calls n (server.route req.uri) req

/-- The calls made for requests that are handled one after the other. -/
def answersFrom (n : ℕ) (reqs : List Request) : List (List HandlerCall) :=
  reqs.mapIdx fun i req => callsFor server calls (n + i) req

/-- No call of `close()` where it does harm. On a connection that is not open it does nothing, and
may then be the last thing a call of `parse_request` does. -/
def NoneCloses (fd : ℤ) (n : ℕ) (reqs : List Request) : Prop :=
  ∀ answer ∈ if 0 < fd then answersFrom server calls n reqs
    else (answersFrom server calls n reqs).dropLast, .close ∉ answer

/-- The requests that are complete in the read buffer. -/
def completeRequests (c : HttpConnection) : List Request :=
  (Session.requestDeeds server c).filterMap Deed.request

end Answers

variable {server : HttpServer} {calls : ℕ → Route → Request → List HandlerCall} {clock : ℕ → Tm}

/-- Without requests nobody closes. -/
theorem noneCloses_nil (fd : ℤ) (n : ℕ) : NoneCloses server calls fd n [] := by
  simp [NoneCloses, answersFrom]

/-- The first answer and the rest. -/
theorem noneCloses_cons (fd : ℤ) (n : ℕ) (req : Request) (reqs : List Request) :
    NoneCloses server calls fd n (req :: reqs) ↔
      if .close ∈ callsFor server calls n req then ¬0 < fd ∧ reqs = []
      else NoneCloses server calls fd (n + 1) reqs := by
  have hcons : answersFrom server calls n (req :: reqs) =
      callsFor server calls n req :: answersFrom server calls (n + 1) reqs := by
    simp only [answersFrom, List.mapIdx_cons, Nat.add_zero]
    congr 2
    funext i req
    rw [Nat.add_right_comm, Nat.add_assoc]
  unfold NoneCloses
  rw [hcons]
  by_cases hfd : 0 < fd
  · rw [if_pos hfd, if_pos hfd, List.forall_mem_cons]
    split
    · next hmem => exact iff_of_false (fun h => h.1 hmem) fun h => h.1 hfd
    · next hmem => exact and_iff_right hmem
  · rw [if_neg hfd, if_neg hfd]
    cases reqs with
    | nil => simp [answersFrom, hfd]
    | cons r rs =>
        have hne : answersFrom server calls (n + 1) (r :: rs) ≠ [] := by simp [answersFrom]
        rw [List.dropLast_cons_of_ne_nil hne, List.forall_mem_cons]
        split
        · next hmem => exact iff_of_false (fun h => h.1 hmem) fun h => List.cons_ne_nil _ _ h.2
        · next hmem => exact and_iff_right hmem

namespace Serving

variable {s t : Serving} {o : Ending × Serving} {n : ℕ}

/-- The record of a round only grows. -/
theorem serveRound_record (server : HttpServer) (h : Handlers) (s : Serving) :
    (∀ t, serveRound server h s = .next t → s.record <+: t.record) ∧
      ∀ o, serveRound server h s = .done o → s.record <+: o.2.record := by
  have hhandled : ∀ req (u : Serving), u.record <+: (u.handleRequest server h req).record := by
    intro req u
    obtain ⟨t, -, ⟨-, heq⟩ | ⟨-, heq⟩⟩ := handleRequest_cases server h req u <;> rw [heq]
    · exact List.prefix_append _ _
    · exact List.prefix_append _ _
  constructor
  · intro t hround
    obtain ⟨req, buf, -, -, -, rfl⟩ := serveRound_next hround
    exact hhandled req (s.parsed req buf)
  · intro o hround
    rcases serveRound_done hround with ⟨-, rfl⟩ | ⟨req, buf, -, -, rfl⟩ | ⟨-, hrecord⟩
    · exact List.prefix_rfl
    · exact hhandled req (s.parsed req buf)
    · exact hrecord ▸ List.prefix_rfl

/-- The record of a call only grows. -/
theorem record_grows {h : Handlers} (hends : (serveRound server h).Ends s n o) :
    s.record <+: o.2.record := by
  obtain ⟨t, hpass, hdone⟩ := hends
  have hgrown : s.record <+: t.record :=
    hpass.invariant (I := fun t => s.record <+: t.record)
      (fun u w hu hround => hu.trans ((serveRound_record server h u).1 w hround)) List.prefix_rfl
  exact hgrown.trans ((serveRound_record server h t).2 o hdone)

/-- **A request is handled** by handlers made of calls. -/
theorem handleRequest_ofCalls (server : HttpServer)
    (calls : ℕ → Route → Request → List HandlerCall) (clock : ℕ → Tm) (req : Request)
    (s : Serving) :
    let t := s.handleRequest server (.ofCalls calls clock) req
    let answer := callsFor server calls s.dispatches req
    t.record = s.record ++ .dispatched req :: (if .close ∈ answer then [.closed] else []) ∧
    ((0 < s.conn.fd ∧ .close ∈ answer ∧ t.conn.requests = []) ∨
      ((0 < s.conn.fd → .close ∉ answer) ∧ t.conn.fd = s.conn.fd ∧
        t.conn.readBuffer = s.conn.readBuffer ∧ t.conn.requests = s.conn.requests)) := by
  obtain ⟨u, hconn, hcases⟩ := handleRequest_cases server (.ofCalls calls clock) req s
  have hfd : u.conn.fd = s.conn.fd := by rw [hconn, Session.afterClose_fd]
  have hbuf : u.conn.readBuffer = s.conn.readBuffer := by
    rw [hconn, Session.afterClose_readBuffer]
  have hqueue : u.conn.requests = s.conn.requests := by
    rw [hconn, Session.afterClose_requests]
  rcases hcases with ⟨hroute, heq⟩ | ⟨hroute, heq⟩
  · rw [heq]
    simp only [callsFor, if_pos hroute, List.not_mem_nil, if_false, not_false_iff, implies_true,
      true_and]
    exact .inr ⟨hfd, hbuf, hqueue⟩
  · rw [heq]
    simp only [callsFor, if_neg hroute, Handlers.ofCalls, any_closes, true_and]
    rw [← hfd, ← hbuf, ← hqueue]
    rcases u.foldl_call (calls s.dispatches (server.route req.uri) req) with
      ⟨hpos, hmem, -, -, hempty⟩ | hrest
    · exact .inl ⟨hpos, hmem, hempty⟩
    · exact .inr hrest

/-! ## The complete requests of a round -/

variable {fuel : ℕ} {req : Request} {rest : Str}

/-- Without input no request is completed. -/
theorem completed_nil (hbuf : s.conn.readBuffer = []) :
    (Session.deeds server fuel s.conn.requests s.conn.readBuffer).filterMap Deed.request = [] := by
  rw [hbuf, Session.deeds_nil]
  rfl

/-- A request that is completed is the first one. -/
theorem completed_cons (hbuf : s.conn.readBuffer ≠ [])
    (hparse : (Session.front s.conn.requests).parse s.conn.readBuffer = .ok (.allread, req, rest)) :
    (Session.deeds server (fuel + 1) s.conn.requests s.conn.readBuffer).filterMap Deed.request =
      req :: (Session.deeds server fuel s.conn.requests.tail rest).filterMap Deed.request := by
  rw [Session.deeds, if_neg hbuf, hparse]
  rfl

/-- A call that completes nothing is the last one. -/
theorem completed_none (hnone : ∀ req rest,
    (Session.front s.conn.requests).parse s.conn.readBuffer ≠ .ok (.allread, req, rest)) :
    (Session.deeds server fuel s.conn.requests s.conn.readBuffer).filterMap Deed.request = [] := by
  cases fuel with
  | zero => rfl
  | succ fuel =>
      rw [Session.deeds]
      split
      · rfl
      · split
        · next heq => exact absurd heq (hnone _ _)
        all_goals rfl

/-! ## Runs -/

/-- A round that goes on leaves the rest of the complete requests. -/
theorem completed_next (hbuf : s.conn.readBuffer ≠ [])
    (hparse : (Session.front s.conn.requests).parse s.conn.readBuffer = .ok (.allread, req, rest))
    (hround : serveRound server (.ofCalls calls clock) s = .next t) (hf : s.measure ≤ fuel + 1) :
    (0 < s.conn.fd → .close ∉ callsFor server calls s.dispatches req) ∧
    t.record = s.record ++ .dispatched req ::
      (if .close ∈ callsFor server calls s.dispatches req then [.closed] else []) ∧
    t.conn.fd = s.conn.fd ∧ t.dispatches = s.dispatches + 1 ∧ t.measure ≤ fuel ∧
    (Session.deeds server (fuel + 1) s.conn.requests s.conn.readBuffer).filterMap Deed.request =
      req :: (Session.deeds server fuel t.conn.requests t.conn.readBuffer).filterMap
        Deed.request := by
  obtain ⟨hcount, hlt⟩ := serveRound_measure (Handlers.addNothing_ofCalls calls clock) hround
  obtain ⟨req', buf, -, hparse', hqueue, rfl⟩ := serveRound_next hround
  obtain ⟨-, rfl, rfl⟩ : ParseStatus.allread = .allread ∧ req' = req ∧ buf = rest := by
    simpa using hparse'.symm.trans hparse
  obtain ⟨hrecord, hconn⟩ := handleRequest_ofCalls server calls clock req' (s.parsed req' buf)
  rcases hconn with ⟨-, -, hempty⟩ | ⟨hopen, hfd, hread, hrequests⟩
  · exact absurd hempty hqueue
  · refine ⟨hopen, hrecord, by simpa using hfd, hcount, by omega, ?_⟩
    rw [completed_cons hbuf hparse]
    simp only [map_toSession, popped_readBuffer, popped_requests, hread, hrequests,
      parsed_readBuffer, parsed_requests, List.tail_cons]

/-- There is a round to make where there is input. -/
theorem exists_fuel (hbuf : s.conn.readBuffer ≠ []) (hf : s.measure ≤ fuel) :
    ∃ k, fuel = k + 1 := by
  have hpos := List.length_pos_iff.mpr hbuf
  unfold Session.measure at hf
  exact Nat.exists_eq_succ_of_ne_zero (by omega)

/-- A record without a close has none behind it. -/
theorem pairwise_of_open {record : List Act} (hopen : .closed ∉ record) :
    record.Pairwise fun a b => a = .closed → b = .closed :=
  List.pairwise_of_forall_mem_list fun _ ha _ _ h => absurd (h ▸ ha) hopen

/-- Once `close()` has been called without closing anything, no request may be left. -/
theorem closesSafely_late (hends : (serveRound server (.ofCalls calls clock)).Ends s n o)
    (hf : s.measure ≤ fuel) (hclosed : .closed ∈ s.record)
    (horder : s.record.Pairwise fun a b => a = .closed → b = .closed) :
    ClosesSafely o ↔
      (Session.deeds server fuel s.conn.requests s.conn.readBuffer).filterMap Deed.request = [] := by
  rcases serveRound_cases server (.ofCalls calls clock) s with ⟨hbuf, hdone⟩ |
    ⟨req, rest, hbuf, hparse, hgo⟩ | ⟨o', -, hdone, hne, hrecord, hnone⟩
  · obtain rfl := hends.of_done hdone
    exact iff_of_true ⟨by simp, horder⟩ (completed_nil hbuf)
  · obtain ⟨fuel, rfl⟩ := exists_fuel hbuf hf
    rw [completed_cons hbuf hparse]
    refine iff_of_false (fun hsafe => ?_) (List.cons_ne_nil _ _)
    rcases hgo with ⟨-, hdone⟩ | ⟨-, hnext⟩
    · obtain rfl := hends.of_done hdone
      exact hsafe.queue rfl
    · obtain ⟨m, ht⟩ := hends.of_next hnext
      obtain ⟨-, hrecord, -⟩ := completed_next hbuf hparse hnext hf
      -- the request stands behind the `close()`
      have hpair := hsafe.order.sublist (record_grows ht).sublist
      rw [hrecord] at hpair
      exact absurd ((List.pairwise_append.mp hpair).2.2 _ hclosed _ List.mem_cons_self rfl)
        (by simp)
  · obtain rfl := hends.of_done hdone
    exact iff_of_true ⟨hne, hrecord ▸ horder⟩ (completed_none hnone)

/-- **The rounds of a call**, as long as nothing has been closed. -/
theorem closesSafely_ends (hends : (serveRound server (.ofCalls calls clock)).Ends s n o)
    (hf : s.measure ≤ fuel) (hopen : .closed ∉ s.record) :
    ClosesSafely o ↔ NoneCloses server calls s.conn.fd s.dispatches
      ((Session.deeds server fuel s.conn.requests s.conn.readBuffer).filterMap Deed.request) := by
  induction fuel generalizing s n with
  | zero =>
      have hbuf : s.conn.readBuffer = [] := by
        by_contra hbuf
        obtain ⟨k, hk⟩ := exists_fuel hbuf hf
        cases hk
      have hround : serveRound server (.ofCalls calls clock) s = .done (.returned, s) := by
        rw [serveRound_eq, if_pos hbuf]
      obtain rfl := hends.of_done hround
      exact iff_of_true ⟨by simp, pairwise_of_open hopen⟩ (noneCloses_nil _ _)
  | succ fuel ih =>
      rcases serveRound_cases server (.ofCalls calls clock) s with ⟨hbuf, hdone⟩ |
        ⟨req, rest, hbuf, hparse, ⟨hqueue, hdone⟩ | ⟨-, hnext⟩⟩ | ⟨o', -, hdone, hne, hrecord, hnone⟩
      · obtain rfl := hends.of_done hdone
        rw [completed_nil hbuf]
        exact iff_of_true ⟨by simp, pairwise_of_open hopen⟩ (noneCloses_nil _ _)
      · -- the queue is empty, so the handler has closed the connection
        obtain rfl := hends.of_done hdone
        rw [completed_cons hbuf hparse, noneCloses_cons]
        obtain ⟨-, ⟨hfd, hmem, -⟩ | ⟨-, -, -, hrequests⟩⟩ := handleRequest_ofCalls
          server calls clock req (s.parsed req rest)
        · have hanswer : .close ∈ callsFor server calls s.dispatches req := hmem
          rw [if_pos hanswer]
          exact iff_of_false (fun hsafe => hsafe.queue rfl) fun h => h.1 hfd
        · rw [hrequests] at hqueue
          simp at hqueue
      · obtain ⟨m, ht⟩ := hends.of_next hnext
        obtain ⟨hpos, hrecord, hfd, hcount, hlt, hreqs⟩ := completed_next hbuf hparse hnext hf
        rw [hreqs, noneCloses_cons]
        by_cases hmem : .close ∈ callsFor server calls s.dispatches req
        · -- nothing has been closed, but the record says that `close()` was called
          rw [if_pos hmem] at hrecord ⊢
          have hshut : ¬0 < s.conn.fd := fun hfd => hpos hfd hmem
          rw [and_iff_right hshut]
          refine closesSafely_late ht hlt (by rw [hrecord]; simp) ?_
          rw [hrecord]
          exact List.pairwise_append.mpr ⟨pairwise_of_open hopen, by simp, fun a ha b _ h =>
            absurd (h ▸ ha) hopen⟩
        · rw [if_neg hmem] at hrecord ⊢
          rw [ih ht hlt (by rw [hrecord]; simp [hopen]), hfd, hcount]
      · obtain rfl := hends.of_done hdone
        rw [completed_none hnone]
        exact iff_of_true ⟨hne, hrecord ▸ pairwise_of_open hopen⟩ (noneCloses_nil _ _)

/-- **`close()` in a handler** does no harm exactly where no request that is complete in the read
buffer is answered with it, but for the last one of a connection that is not open anyway. -/
theorem closesSafely_iff (server : HttpServer) (calls : ℕ → Route → Request → List HandlerCall)
    (clock : ℕ → Tm) (s : Session) :
    (∀ o, ParseRequest server (.ofCalls calls clock) { toSession := s } o → ClosesSafely o) ↔
      NoneCloses server calls s.conn.fd 0 (completeRequests server s.conn) := by
  unfold ParseRequest completeRequests Session.requestDeeds
  by_cases hbuf : s.conn.readBuffer = []
  · simp only [if_pos hbuf]
    have hnone : (if s.conn.status = .connected then [Deed.addRead] else []).filterMap Deed.request =
        [] := by
      split <;> rfl
    rw [hnone]
    refine iff_of_true ?_ (noneCloses_nil _ _)
    rintro o rfl
    refine ⟨by simp, ?_⟩
    split <;> exact .nil
  · simp only [if_neg hbuf]
    obtain ⟨n, o, hends, -⟩ := serveRound_ends (Handlers.addNothing_ofCalls calls clock) server
      { toSession := s }
    have hiff := closesSafely_ends hends (le_refl s.measure) List.not_mem_nil
    constructor
    · exact fun hall => hiff.mp (hall o ⟨n, hends⟩)
    · rintro hnone o' ⟨m, hends'⟩
      obtain rfl := hends.unique hends'
      exact hiff.mpr hnone

/-- One complete request, and a handler that closes the connection. -/
theorem closing_empties_queue :
    ∃ o, ParseRequest ⟨[], true⟩ (.ofCalls (fun _ _ _ => [.close]) fun _ => newYear)
        { toSession := Session.sole 5 (str "GET /a HTTP/1.1\r\n\r\n") } o ∧
      ¬ClosesSafely o := by
  have hrun : ((serveRound ⟨[], true⟩ (.ofCalls (fun _ _ _ => [.close]) fun _ => newYear)).run 1
      { toSession := Session.sole 5 (str "GET /a HTTP/1.1\r\n\r\n") }).map Prod.fst =
        some .emptyQueue := by
    decide +kernel
  obtain ⟨o, ho, hempty⟩ := Option.map_eq_some_iff.mp hrun
  obtain ⟨n, -, hends⟩ := Loop.run_eq_some.mp ho
  refine ⟨o, ?_, fun hsafe => hsafe.queue hempty⟩
  rw [ParseRequest, if_neg (by decide)]
  exact ⟨n, hends⟩

end Serving

end Libio
