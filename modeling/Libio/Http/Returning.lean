import Libio.Http.BodyRoom
import Libio.Http.Termination

/-! # Calls of `parse_request` that return

The loop of `parse_request` ends as far as its rounds return. In the code a push onto the body of a
message may not, an escape that is cut off is read beyond its end, and a handler may empty the queue
that `parse_request` pops. `parseRequest_terminates_iff` says when a call terminates. -/

namespace Libio

open ByteQueue

/-- A line consists of bytes of the queue it is taken off. -/
theorem mem_of_mem_popLine {q : Str} {c : UInt8} (h : c ∈ (popLine q).1) : c ∈ q := by
  unfold popLine at h
  simp only at h
  split at h
  · cases h
  · exact (List.takeWhile_prefix _).subset ((List.takeWhile_prefix _).subset h)

/-- A line without a percent sign has no escape that is cut off. -/
theorem Request.escapesWell_of_not_mem {line : Str} (h : (37 : UInt8) ∉ line) :
    EscapesWell line := by
  intro method uri protocol hline _
  have huri : ∀ c ∈ uri, c ∈ line := by
    unfold threeFields at hline
    split at hline
    · cases hline
    · split at hline
      · cases hline
      · obtain ⟨-, rfl, -⟩ : _ ∧ _ ∧ _ := by simpa using hline
        exact fun c hc => List.mem_of_mem_drop (List.mem_of_mem_take hc)
  have hpath : (37 : UInt8) ∉ pathOf uri := fun hmem =>
    h (huri 37 ((List.takeWhile_prefix _).subset hmem))
  exact (stringFromUtf8_isOk _).mp ⟨_, stringFromUtf8_literal hpath⟩

/-! ## The call -/

/-- An end of a call that the language gives a meaning: it returns, or an exception leaves it. -/
def Ending.Defined : Ending → Prop
  | .returned => True
  | .thrown e => e ≠ .undefined
  | .emptyQueue => False

namespace Serving

variable {server : HttpServer} {h : Handlers} {s t : Serving} {o : Ending × Serving}

/-- A round from this state returns. `sends` says where the pushes onto the write buffer do, which
depends on how much of that buffer has been written out. -/
def RoundReturns (sends : Serving → Prop) (s : Serving) : Prop :=
  s.conn.readBuffer ≠ [] →
    (Session.front s.conn.requests).ParseReturns s.conn.readBuffer ∧ sends s

/-- `parse_request` ends with `o`, each of its rounds returning. -/
def ParseRequestReturns (sends : Serving → Prop) (server : HttpServer) (h : Handlers) (s : Serving)
    (o : Ending × Serving) : Prop :=
  if s.conn.readBuffer = [] then
    o = (.returned, if s.conn.status = .connected then s.map Session.addRead else s)
  else ∃ n, (serveRound server h).EndsWithin (RoundReturns sends) s n o

/-- `parse_request` terminates: its loop ends, with each call of `parse` in it, by returning or with
an exception, after at most one dispatch more than there are bytes in the read buffer; and the loop
over header lines ends. -/
structure Terminates (sends : Serving → Prop) (server : HttpServer) (h : Handlers) (s : Session) :
    Prop where
  requests : ∃ o, ParseRequestReturns sends server h { toSession := s } o ∧ o.1.Defined ∧
    o.2.dispatches ≤ s.conn.readBuffer.length + 1
  headers : ∀ scan : HeaderScan, ∃ n,
    headersRound.Ends scan n (readHeaders scan.k scan.v scan.headers scan.buf)

/-- Nothing hinders the round from this state: the body of the front request has room for what is
pushed, what is sent returns, no escape in a request line is cut off, and the handler of a complete
request leaves the queue its request. -/
structure Unhindered (sends : Serving → Prop) (server : HttpServer) (h : Handlers) (s : Serving) :
    Prop where
  room : (Session.front s.conn.requests).ParseRoom s.conn.readBuffer
  sends : sends s
  escapes : (Session.front s.conn.requests).status = .readingFirstline →
    Request.EscapesWell (popLine s.conn.readBuffer).1
  queue : ∀ req buf, (Session.front s.conn.requests).parse s.conn.readBuffer = .ok (.allread, req, buf) →
    ((s.parsed req buf).handleRequest server h req).conn.requests ≠ []

/-- The front request is a request that calls of the parser have led to, and the only one. -/
structure Resumable (s : Serving) : Prop where
  alone : s.conn.requests.length ≤ 1
  front : Request.Reached .request (Session.front s.conn.requests)

/-- **Step lemma.** Behind a round that goes on there is no request, so the next one is a fresh
one. -/
theorem Resumable.next (hh : h.AddNothing) (hs : s.Resumable)
    (hround : serveRound server h s = .next t) : t.Resumable ∧ t.conn.requests = [] := by
  obtain ⟨req, buf, -, -, -, rfl⟩ := serveRound_next hround
  have hlen := (handleRequest_adds hh server req (s.parsed req buf)).2
  have halone := hs.alone
  have hempty : ((s.parsed req buf).handleRequest server h req).conn.requests.tail = [] := by
    rw [← List.length_eq_zero_iff, List.length_tail]
    simp only [parsed_requests, List.length_cons, List.length_tail] at hlen
    omega
  have hqueue : (((s.parsed req buf).handleRequest server h req).map
      fun s => s.popRequest.addWriteIfPending).conn.requests = [] := by
    rw [map_toSession, popped_requests, hempty]
  refine ⟨⟨?_, ?_⟩, hqueue⟩
  · rw [hqueue]
    exact Nat.zero_le _
  · rw [hqueue]
    exact .start

/-- It is a request. -/
theorem Resumable.kind (hs : s.Resumable) : (Session.front s.conn.requests).kind = .request :=
  hs.front.kind_eq

/-- A call of `parse` in a round is defined when no escape is cut off. -/
theorem Resumable.parse_defined (hs : s.Resumable) :
    (Session.front s.conn.requests).parse s.conn.readBuffer ≠ .error .undefined ↔
      ((Session.front s.conn.requests).status = .readingFirstline →
        Request.EscapesWell (popLine s.conn.readBuffer).1) := by
  rw [Request.parse_defined_iff hs.front.ready hs.front.tidy]
  simp only [hs.kind, forall_true_left]

/-- The last round, when nothing hinders it. -/
theorem Unhindered.defined {sends : Serving → Prop} (hs : s.Resumable)
    (hgo : s.conn.readBuffer ≠ [] → Unhindered sends server h s)
    (hround : serveRound server h s = .done o) : o.1.Defined := by
  rw [serveRound_eq] at hround
  by_cases hbuf : s.conn.readBuffer = []
  · rw [if_pos hbuf] at hround
    rw [← Round.done.inj hround]
    trivial
  · rw [if_neg hbuf] at hround
    have hun := hgo hbuf
    have hdef := hs.parse_defined.mpr hun.escapes
    cases hparse : (Session.front s.conn.requests).parse s.conn.readBuffer with
    | error e =>
        rw [hparse] at hround hdef
        rw [← Round.done.inj hround]
        exact fun he => hdef (he ▸ rfl)
    | ok p =>
        obtain ⟨status, req, buf⟩ := p
        rw [hparse] at hround
        cases status with
        | allread =>
            simp only [if_neg (hun.queue req buf hparse)] at hround
            cases hround
        | needmore | corrupted | canceld =>
            rw [← Round.done.inj hround]
            trivial

/-- **When `parse_request` terminates**: with handlers that add neither to the read buffer nor to the
queue, and a front request in any state calls of the parser lead to, exactly when nothing hinders the
rounds it makes. -/
theorem parseRequest_terminates_iff (hh : h.AddNothing) (server : HttpServer) (sends : Serving → Prop)
    {s : Session} (hs : Resumable { toSession := s }) :
    Terminates sends server h s ↔ ∀ m t, (serveRound server h).Passes { toSession := s } m t →
      t.conn.readBuffer ≠ [] → Unhindered sends server h t := by
  have hresume : ∀ m t, (serveRound server h).Passes { toSession := s } m t → t.Resumable :=
    fun m t hpass => hpass.invariant (I := Resumable) (fun _ _ hu hround => (hu.next hh hround).1) hs
  constructor
  · rintro ⟨⟨o, hreturns, hdef, -⟩, -⟩ m t hpass hbuf
    have hne : s.conn.readBuffer ≠ [] := by
      intro hnil
      have hdone : serveRound server h { toSession := s } = .done (.returned, { toSession := s }) :=
        if_pos hnil
      cases hpass with
      | refl => exact hbuf hnil
      | next hnext => cases hdone.symm.trans hnext
    obtain ⟨n, hw⟩ := (if_neg hne).mp hreturns
    obtain ⟨hparse, hsends⟩ := (Loop.endsWithin_iff hw.ends).mp hw m t hpass hbuf
    have hend : ∀ o', serveRound server h t = .done o' → o' = o := fun o' hdone =>
      Loop.Ends.unique ⟨t, hpass, hdone⟩ hw.ends
    refine ⟨Request.parseReturns_iff.mp hparse, hsends, ?_, fun req buf hreq hqueue => ?_⟩
    · refine (hresume m t hpass).parse_defined.mp fun hundef => ?_
      have hdone : serveRound server h t = .done (.thrown .undefined, t.map Session.ensureRequest) := by
        rw [serveRound_eq, if_neg hbuf, hundef]
      rw [← hend _ hdone] at hdef
      exact hdef rfl
    · have hdone : serveRound server h t =
          .done (.emptyQueue, (t.parsed req buf).handleRequest server h req) := by
        rw [serveRound_eq, if_neg hbuf, hreq]
        exact if_pos hqueue
      rw [← hend _ hdone] at hdef
      exact hdef
  · intro hgo
    refine ⟨?_, fun scan => ?_⟩
    · by_cases hbuf : s.conn.readBuffer = []
      · refine ⟨_, if_pos hbuf |>.mpr rfl, trivial, ?_⟩
        split <;> simp [dispatches]
      · obtain ⟨n, o, hends, -, hcount⟩ := serveRound_ends hh server { toSession := s }
        refine ⟨o, (if_neg hbuf).mpr ⟨n, (Loop.endsWithin_iff hends).mpr fun m t hpass hne => ?_⟩, ?_, ?_⟩
        · have hun := hgo m t hpass hne
          exact ⟨Request.parseReturns_iff.mpr hun.room, hun.sends⟩
        · obtain ⟨t, hpass, hdone⟩ := hends
          exact Unhindered.defined (hresume n t hpass) (hgo n t hpass) hdone
        · refine hcount.trans ?_
          have halone : s.conn.requests.length ≤ 1 := hs.alone
          show 0 + (s.conn.readBuffer.length + s.conn.requests.length) ≤ _
          omega
    · obtain ⟨n, hends, -⟩ := headersRound_ends scan
      exact ⟨n, hends⟩

/-! ## Handlers that send -/

section Sending

variable {calls : ℕ → Route → Request → List HandlerCall} {clock : ℕ → Tm}
  (hcalls : ∀ n route req, .close ∉ calls n route req)
include hcalls

/-- Handling a request leaves the read buffer and the queue alone, when no handler closes. -/
theorem handleRequest_sending (server : HttpServer) (req : Request) (s : Serving) :
    (s.handleRequest server (.ofCalls calls clock) req).conn.readBuffer = s.conn.readBuffer ∧
      (s.handleRequest server (.ofCalls calls clock) req).conn.requests = s.conn.requests := by
  obtain ⟨t, hconn, hcases⟩ := handleRequest_cases server (.ofCalls calls clock) req s
  have hbuf : t.conn.readBuffer = s.conn.readBuffer := by
    rw [hconn, Session.afterClose_readBuffer]
  have hqueue : t.conn.requests = s.conn.requests := by
    rw [hconn, Session.afterClose_requests]
  rw [← hbuf, ← hqueue]
  rcases hcases with ⟨-, heq⟩ | ⟨-, heq⟩ <;> rw [heq]
  · exact ⟨rfl, rfl⟩
  · have hcall := t.foldl_call (calls s.dispatches (server.route req.uri) req)
    rcases hcall with ⟨-, hclose, -⟩ | ⟨-, -, hrest⟩
    · exact absurd hclose (hcalls _ _ _)
    · exact hrest

/-- **Nothing hinders** a pipeline without escapes, when handlers only send and the body of the front
request has room for what is in the read buffer. -/
theorem unhindered_of_sending (server : HttpServer) {sends : Serving → Prop} (hsends : ∀ t, sends t)
    (hs : s.Resumable) (hpercent : (37 : UInt8) ∉ s.conn.readBuffer)
    (hfits : (Session.front s.conn.requests).buf.length + s.conn.readBuffer.length ≤ 2 ^ 30) :
    ∀ m t, (serveRound server (.ofCalls calls clock)).Passes s m t → t.conn.readBuffer ≠ [] →
      Unhindered sends server (.ofCalls calls clock) t := by
  intro m t hpass hbuf
  -- the invariant: what there is room for stays so, and no escape comes up
  have hinv : t.Resumable ∧ (37 : UInt8) ∉ t.conn.readBuffer ∧
      (Session.front t.conn.requests).buf.length + t.conn.readBuffer.length ≤ 2 ^ 30 := by
    refine hpass.invariant (I := fun t => t.Resumable ∧ (37 : UInt8) ∉ t.conn.readBuffer ∧
      (Session.front t.conn.requests).buf.length + t.conn.readBuffer.length ≤ 2 ^ 30)
      (fun t u ht hround => ?_) ⟨hs, hpercent, hfits⟩
    obtain ⟨hresume, hqueue⟩ := ht.1.next (Handlers.addNothing_ofCalls calls clock) hround
    refine ⟨hresume, ?_⟩
    obtain ⟨req, buf, -, hparse, -, rfl⟩ := serveRound_next hround
    have hread : (((t.parsed req buf).handleRequest server (.ofCalls calls clock) req).map
        fun s => s.popRequest.addWriteIfPending).conn.readBuffer = buf := by
      rw [map_toSession, popped_readBuffer, (handleRequest_sending hcalls server req _).1,
        parsed_readBuffer]
    obtain ⟨-, hsuffix, -⟩ := Request.parse_advances hparse
    rw [hread, hqueue]
    refine ⟨fun hmem => ht.2.1 (hsuffix.subset hmem), ?_⟩
    have hle : buf.length ≤ t.conn.readBuffer.length := hsuffix.length_le
    have hfresh : (Session.front []).buf.length = 0 := rfl
    omega
  obtain ⟨hresume, hpercent, hfits⟩ := hinv
  refine ⟨Request.parseRoom_of_fits hfits, hsends t, fun _ => ?_, fun req buf _ hempty => ?_⟩
  · exact Request.escapesWell_of_not_mem fun hmem => hpercent (mem_of_mem_popLine hmem)
  · rw [(handleRequest_sending hcalls server req _).2] at hempty
    cases hempty

end Sending

/-- Handlers that answer every request with a page. -/
def answering : ℕ → Route → Request → List HandlerCall :=
  fun _ _ _ => [.send (.reply newYear httpOk (str "OK") (str "page"))]

/-- Two pipelined requests, answered one after the other. -/
theorem parseRequest_terminates_pipelined :
    Terminates (fun _ => True) ⟨[], true⟩ (.ofCalls answering fun _ => newYear)
      (Session.sole 5 (str "GET /a HTTP/1.1\r\n\r\nGET /b HTTP/1.1\r\n\r\n")) := by
  have hs : Resumable
      { toSession := Session.sole 5 (str "GET /a HTTP/1.1\r\n\r\nGET /b HTTP/1.1\r\n\r\n") } :=
    ⟨Nat.zero_le 1, .start⟩
  exact (parseRequest_terminates_iff (Handlers.addNothing_ofCalls _ _) ⟨[], true⟩ _ hs).mpr
    (unhindered_of_sending (by simp [answering]) _ (fun _ => trivial) hs (by decide) (by decide))

/-- A call whose loop ends in a way the language gives no meaning does not terminate. -/
theorem not_terminates_of_run {sends : Serving → Prop} {s : Session} {n : ℕ} {e : Ending}
    (hbuf : s.conn.readBuffer ≠ [])
    (hrun : ((serveRound server h).run n { toSession := s }).map Prod.fst = some e)
    (he : ¬e.Defined) : ¬Terminates sends server h s := by
  rintro ⟨⟨o, hreturns, hdef, -⟩, -⟩
  obtain ⟨o', ho', rfl⟩ := Option.map_eq_some_iff.mp hrun
  obtain ⟨m, -, hends⟩ := Loop.run_eq_some.mp ho'
  obtain ⟨k, hw⟩ := (if_neg hbuf).mp hreturns
  rw [hends.unique hw.ends] at he
  exact he hdef

/-- A call whose first call of `parse` does not return does not terminate. -/
theorem not_terminates_of_parse {sends : Serving → Prop} {s : Session}
    (hbuf : s.conn.readBuffer ≠ [])
    (hparse : ¬(Session.front s.conn.requests).ParseReturns s.conn.readBuffer) :
    ¬Terminates sends server h s := by
  rintro ⟨⟨o, hreturns, -⟩, -⟩
  obtain ⟨n, hw⟩ := (if_neg hbuf).mp hreturns
  exact hparse ((Loop.endsWithin_iff hw.ends).mp hw 0 _ (.refl _) hbuf).1

/-- A POST without a length that has been read up to here. -/
def openPost (body : Str) : Request where
  kind := .request
  type := some .post
  status := .readingBody
  uri := str "/"
  headers := Request.lookedUp (Request.lookedUp ∅)
  ntoread := -1
  buf := body

/-- Its headers have been looked up in twice. -/
theorem openPost_headers (body : Str) :
    (openPost body).headers = Request.lookedUp (Request.lookedUp ∅) := by
  simp only [openPost]

/-- Two calls of the parser lead to it. -/
theorem reached_openPost (body : Str) : Request.Reached .request (openPost body) := by
  have hfirst : (Request.parse { kind := .request } (str "POST / HTTP/1.1\r\n\r\n")).toOption =
      some (.needmore, { openPost [] with headers := Request.lookedUp ∅ }, []) := by
    decide +kernel
  have hsecond : Request.parse { openPost [] with headers := Request.lookedUp ∅ } body =
      .ok (.needmore, openPost body, []) :=
    Request.parseBody_unframed (r := { openPost [] with headers := Request.lookedUp ∅ })
      (by decide +kernel) rfl (by decide +kernel) body
  refine .parse ?_ hsecond
  cases hparse : Request.parse { kind := .request } (str "POST / HTTP/1.1\r\n\r\n") with
  | error e =>
      rw [hparse] at hfirst
      cases hfirst
  | ok p =>
      rw [hparse] at hfirst
      obtain rfl : p = _ := Option.some.inj hfirst
      exact .parse .start hparse

/-- The connection with this request in front, and one more byte in its read buffer. -/
def openConnection (body : Str) : Session :=
  { Session.sole 5 (str "x") with
    conn := { (Session.sole 5 (str "x")).conn with requests := [openPost body] } }

/-- It has to push this byte, for which a body of `2^30` bytes has no room. -/
theorem not_terminates_open {sends : Serving → Prop} {body : Str} (hbody : 2 ^ 30 ≤ body.length) :
    ¬Terminates sends server h (openConnection body) := by
  have hte : ((openPost body).headers.subscript (str "Transfer-Encoding")).1 ≠ str "chunked" := by
    rw [openPost_headers]
    decide +kernel
  have hlen : (((openPost body).headers.subscript (str "Transfer-Encoding")).2.subscript
      (str "Content-Length")).1 = [] := by
    rw [openPost_headers]
    decide +kernel
  exact not_terminates_of_parse (s := openConnection body) (List.cons_ne_nil 120 [])
    (Request.not_parseReturns_unframed rfl hte hlen rfl hbody 120)

/-- A body of `2^30` bytes that is to take one more, a handler that closes the connection, and an
escape that is cut off. -/
theorem not_terminates_fullBody :
    (Request.Reached .request (openPost (List.replicate (2 ^ 30) 120)) ∧
      ¬Terminates (fun _ => True) ⟨[], true⟩ (.ofCalls answering fun _ => newYear)
        (openConnection (List.replicate (2 ^ 30) 120))) ∧
    ¬Terminates (fun _ => True) ⟨[], true⟩ (.ofCalls (fun _ _ _ => [.close]) fun _ => newYear)
      (Session.sole 5 (str "GET /a HTTP/1.1\r\n\r\n")) ∧
    ¬Terminates (fun _ => True) ⟨[], true⟩ (.ofCalls answering fun _ => newYear)
      (Session.sole 5 (str "GET /% HTTP/1.1\r\n\r\n")) := by
  refine ⟨⟨reached_openPost _, not_terminates_open (List.length_replicate ..).ge⟩, ?_, ?_⟩
  · exact not_terminates_of_run (n := 1) (e := .emptyQueue) (by decide) (by decide +kernel) id
  · exact not_terminates_of_run (n := 1) (e := .thrown .undefined) (by decide) (by decide +kernel)
      fun hdef => hdef rfl

end Serving

end Libio
