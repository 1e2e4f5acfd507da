import Libio.Http.ParserLoops
import Libio.Http.Serving

/-! # The loop of `parse_request` ends

It does so whatever handlers do that neither lengthen the read buffer nor the queue: a round that
goes on has taken a request off the queue, or, where the request was made in the round, a line off
the buffer (`serveRound_measure`). All this is about rounds that return; `Returning` says when they
do. -/

namespace Libio

open ByteQueue

/-- What handlers made of the operations of a connection do: they add neither to the read buffer nor
to the queue. -/
structure Handlers.AddNothing (h : Handlers) : Prop where
  readBuffer : ∀ n route req s,
    (h.run n route req s).1.conn.readBuffer.length ≤ s.conn.readBuffer.length
  requests : ∀ n route req s,
    (h.run n route req s).1.conn.requests.length ≤ s.conn.requests.length

/-- Calls add nothing, in whatever order they are made. -/
theorem Handlers.addNothing_ofCalls (calls : ℕ → Route → Request → List HandlerCall)
    (clock : ℕ → Tm) : (ofCalls calls clock).AddNothing := by
  constructor
  all_goals
    intro n route req s
    rcases s.foldl_call (calls n route req) with ⟨-, -, -, hbuf, hqueue⟩ | ⟨-, -, hbuf, hqueue⟩
    · simp [ofCalls, hbuf, hqueue]
    · simp [ofCalls, hbuf, hqueue]

namespace Serving

variable {server : HttpServer} {h : Handlers} {s t : Serving} {o : Ending × Serving}

/-- Handling a request adds neither to the read buffer nor to the queue. -/
theorem handleRequest_adds (hh : h.AddNothing) (server : HttpServer) (req : Request) (s : Serving) :
    (s.handleRequest server h req).conn.readBuffer.length ≤ s.conn.readBuffer.length ∧
      (s.handleRequest server h req).conn.requests.length ≤ s.conn.requests.length := by
  obtain ⟨t, hconn, hcases⟩ := handleRequest_cases server h req s
  have hbuf : t.conn.readBuffer = s.conn.readBuffer := by
    rw [hconn, Session.afterClose_readBuffer]
  have hqueue : t.conn.requests = s.conn.requests := by
    rw [hconn, Session.afterClose_requests]
  rw [← hbuf, ← hqueue]
  rcases hcases with ⟨-, heq⟩ | ⟨-, heq⟩ <;> rw [heq]
  · exact ⟨le_rfl, le_rfl⟩
  · exact ⟨hh.readBuffer _ _ _ _, hh.requests _ _ _ _⟩

/-- **A round that goes on** dispatches one request, and leaves less to be done. -/
theorem serveRound_measure (hh : h.AddNothing) (hround : serveRound server h s = .next t) :
    t.dispatches = s.dispatches + 1 ∧ t.measure < s.measure := by
  obtain ⟨req, buf, -, hparse, -, rfl⟩ := serveRound_next hround
  refine ⟨dispatches_handleRequest .., ?_⟩
  obtain ⟨hread, hrequests⟩ := handleRequest_adds hh server req (s.parsed req buf)
  obtain ⟨-, hsuffix, hlt⟩ := Request.parse_advances hparse
  have hle := hsuffix.length_le
  simp only [parsed_readBuffer, parsed_requests, List.length_cons] at hread hrequests
  simp only [Session.measure, map_toSession, popped_readBuffer, popped_requests, List.length_tail]
  cases hr : s.conn.requests with
  | nil =>
      -- the request is a fresh one and has read its first line
      have hline : buf.length < s.conn.readBuffer.length := hlt (by simp [Session.front, hr]) rfl
      simp only [hr, List.tail_nil, List.length_nil] at hrequests ⊢
      omega
  | cons r rs =>
      simp only [hr, List.tail_cons, List.length_cons] at hrequests hle ⊢
      omega

/-- The last round dispatches at most one request, and that only where something is left. -/
theorem dispatches_done (hround : serveRound server h s = .done o) :
    o.2.dispatches ≤ s.dispatches + s.measure := by
  rcases serveRound_done hround with ⟨-, rfl⟩ | ⟨req, buf, hbuf, -, rfl⟩ | ⟨-, hrecord⟩
  · exact Nat.le_add_right _ _
  · have hpos := List.length_pos_iff.mpr hbuf
    rw [dispatches_handleRequest]
    unfold dispatches Session.measure
    rw [parsed_record]
    omega
  · unfold dispatches
    rw [hrecord]
    exact Nat.le_add_right _ _

/-- **The loop of `parse_request` ends**, when all it does returns. -/
theorem serveRound_ends (hh : h.AddNothing) (server : HttpServer) (s : Serving) :
    ∃ n o, (serveRound server h).Ends s n o ∧ n ≤ s.measure ∧
      o.2.dispatches ≤ s.dispatches + s.measure := by
  obtain ⟨n, o, hends, hle⟩ := Loop.ends_of_measure (f := serveRound server h)
    (I := fun _ => True) (μ := fun t => t.measure) (s := s)
    (fun t u _ hround => ⟨trivial, (serveRound_measure hh hround).2⟩) trivial
  refine ⟨n, o, hends, hle, ?_⟩
  obtain ⟨t, hpass, hdone⟩ := hends
  -- what has been dispatched is paid for by what there was to do
  have ht : t.dispatches + t.measure ≤ s.dispatches + s.measure :=
    hpass.invariant (I := fun t => t.dispatches + t.measure ≤ s.dispatches + s.measure)
      (fun t u ht hround => by
        obtain ⟨hcount, hlt⟩ := serveRound_measure hh hround
        omega) le_rfl
  exact (dispatches_done hdone).trans ht

end Serving

end Libio
