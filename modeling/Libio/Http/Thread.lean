import Libio.Core.Buffer
import Libio.Foundation.Transition
import Libio.Http.Replies

/-! # Worker threads

The class `http_thread` of `http/http_thread.cc` with the connections it serves: accepting, the read
and write handlers of a connection, timers with replies, closing, and the pool of closed
connections. A step is one callback; what the kernel answers and what handlers do is the label's
choice. Connections live at addresses and are never freed, as the pool has it.

Beside the state of the program there is a record of who is served: clients are numbered in the
order in which they arrive, `sent` is what a client's socket has taken, and `replies` is what was
appended in answer to that client's requests. -/

namespace Libio

/-- What `read` answers: bytes, the end of the stream, `EAGAIN` or `EINTR`, or another error. -/
inductive ReadAnswer
  | data (bytes : Str)
  | eof
  | again
  | error

/-- What `write` answers: how many bytes it took, zero, `EAGAIN` or its like, or another error. -/
inductive WriteAnswer
  | wrote (n : ℕ)
  | zero
  | again
  | error

/-- The answers `read` can give: bytes, and not more than were asked for. -/
def ReadAnswer.Possible : ReadAnswer → Prop
  | .data bytes => bytes ≠ [] ∧ (bytes.length : ℤ) ≤ Buffer.maxRead
  | _ => True

/-- The answers `write` can give for a buffer. -/
def WriteAnswer.Possible (buf : Str) : WriteAnswer → Prop
  | .wrote n => 0 < n ∧ n ≤ buf.length
  | _ => True

instance (answer : ReadAnswer) : Decidable answer.Possible :=
  match answer with
  | .data _ => inferInstanceAs (Decidable (_ ∧ _))
  | .eof | .again | .error => .isTrue trivial

instance (buf : Str) (answer : WriteAnswer) : Decidable (answer.Possible buf) :=
  match answer with
  | .wrote _ => inferInstanceAs (Decidable (_ ∧ _))
  | .zero | .again | .error => .isTrue trivial

/-- A timer set by a handler: the connection it was given, the calls to make, and the client whose
request was handled. -/
structure Deferred where
  conn : ℕ
  ops : List SendOp
  client : Option ℕ

/-- The class `http_thread`, its connections, and the record of who is served. -/
structure HttpThread where
  conns : ℕ → HttpConnection
  next : ℕ
  hashConnections : ℤ → Option ℕ
  emptyConnections : List ℕ
  clientQueue : List ℤ
  reactor : Reactor ℕ
  timers : List Deferred
  nextClient : ℕ
  /-- The client whose bytes an object has read and not yet dropped. -/
  source : ℕ → Option ℕ
  sent : ℕ → Str
  replies : ℕ → Str

/-- What happens to a worker: a client arrives in its queue, `epoll_wait` reports events, the queue
is emptied, the next event is taken up by the read or the write handler, a timer runs. -/
inductive ThreadEvent
  | arrive (fd : ℤ)
  | listen (events : List (ℤ × Mask))
  | wakeup
  | read (env : Env) (answer : ReadAnswer)
  | write (answer : WriteAnswer)
  | timer (i : ℕ)

/-- What `epoll_wait` may report of a descriptor: events that are registered, or all of them when
the peer has hung up. -/
def Kernel.Reports (k : Kernel) (event : ℤ × Mask) : Prop :=
  ∃ m ∈ k.registered event.1, event.2 = .RDWR ∨ event.2.and m = event.2

instance (k : Kernel) (event : ℤ × Mask) : Decidable (k.Reports event) :=
  inferInstanceAs (Decidable (∃ m ∈ k.registered event.1, _))

namespace HttpThread

/-- A worker that has served nobody. -/
def start : HttpThread where
  conns := fun _ => {}
  next := 0
  hashConnections := fun _ => none
  emptyConnections := []
  clientQueue := []
  reactor :=
    { channels := fun _ => none
      needclean := []
      io := ⟨fun _ => none, ⟨fun _ => none, fun _ => none⟩⟩
      active := [] }
  timers := []
  nextClient := 0
  source := fun _ => none
  sent := fun _ => []
  replies := fun _ => []

variable (s : HttpThread)

/-- The kernel. -/
def kernel : Kernel := s.reactor.io.kernel

/-- Replace the kernel. -/
def setKernel (k : Kernel) : HttpThread :=
  { s with reactor := { s.reactor with io := { s.reactor.io with kernel := k } } }

/-- Replace an object. -/
def setConn (p : ℕ) (c : HttpConnection) : HttpThread :=
  { s with conns := Function.update s.conns p c }

/-- Replace the reactor. -/
def setReactor (re : Reactor ℕ) : HttpThread := { s with reactor := re }

/-- Record bytes appended in answer to a client. -/
def credit (client : Option ℕ) (bytes : Str) : HttpThread :=
  match client with
  | none => s
  | some g => { s with replies := Function.update s.replies g (s.replies g ++ bytes) }

/-! ## Connections -/

/-- `setup_new_events()`. -/
def setupNewEvents (p : ℕ) : HttpThread :=
  let fd := (s.conns p).fd
  s.setReactor ((((s.reactor.setReadHandler fd p).removeRead fd).setWriteHandler fd p).removeWrite fd)

/-- `make_connection(fd, ...)`, and the constructor where the pool is empty. -/
def makeConnection (fd : ℤ) : ℕ × HttpThread :=
  match s.emptyConnections with
  | [] =>
      let p := s.next
      let s := { s with next := p + 1 }
      (p, (s.setConn p { fd := fd, status := .connected }).setupNewEvents p)
  | p :: rest =>
      let s := { s with emptyConnections := rest }
      (p, (s.setConn p { s.conns p with fd := fd, status := .connected }).setupNewEvents p)

/-- The body of the loop over the client queue. -/
def accept (fd : ℤ) : HttpThread :=
  let (p, s) := s.makeConnection fd
  let s := s.setReactor (s.reactor.addRead (s.conns p).fd)
  { s with hashConnections := Function.update s.hashConnections fd (some p) }

/-- `release_connection(fd)`. -/
def releaseConnection (fd : ℤ) : HttpThread :=
  match s.hashConnections fd with
  | none => s
  | some p =>
      { s with
        emptyConnections := s.emptyConnections ++ [p]
        hashConnections := Function.update s.hashConnections fd none }

/-- `close()`. -/
def close (p : ℕ) : HttpThread :=
  let fd := (s.conns p).fd
  if fd > 0 then
    let s := s.setReactor (s.reactor.erase fd)
    let s := s.setKernel (s.kernel.close fd)
    (s.releaseConnection fd).setConn p
      { fd := -1, status := .closed, readBuffer := [], writeBuffer := [], requests := [] }
  else s

/-! ## Callbacks -/

/-- What the methods of a connection work on. -/
def session (c : HttpConnection) : Session := { conn := c, reactor := s.reactor }

/-- Take over what the methods of a connection have done in answer to a client. -/
def absorb (p : ℕ) (client : Option ℕ) (t : Session) : HttpThread :=
  let s := (s.setConn p t.conn).setReactor t.reactor
  let s := { s with timers := s.timers ++ t.timers.map fun ops => Deferred.mk p ops client }
  s.credit client (written t.trace)

/-- The client whose bytes an object is about to read and to work on: the one at the other end,
unless it still has bytes or requests from before. -/
def readSource (p : ℕ) : Option ℕ :=
  if (s.conns p).readBuffer = [] ∧ (s.conns p).requests = [] then s.kernel.clients (s.conns p).fd
  else s.source p

/-- The read handler of a connection. Nothing is left of the worker where an exception is thrown. -/
def readHandler (server : HttpServer) (env : Env) (p : ℕ) (answer : ReadAnswer) :
    Option HttpThread :=
  let c := s.conns p
  match answer with
  | .again => some s
  | .error => some (s.setReactor (s.reactor.removeRead c.fd))
  | .eof => some ((s.setReactor (s.reactor.removeRead c.fd)).setConn p { c with status := .closing })
  | .data bytes =>
      let t := s.session { c with readBuffer := c.readBuffer ++ bytes }
      match t.parseRequest server env with
      -- nobody catches what the parser throws
      | .error _ => none
      | .ok t =>
          some { s.absorb p (s.readSource p) t with
            source := Function.update s.source p (s.readSource p) }

/-- Record bytes a socket has taken. -/
def deliver (fd : ℤ) (bytes : Str) : HttpThread :=
  match s.kernel.clients fd with
  | none => s
  | some g => { s with sent := Function.update s.sent g (s.sent g ++ bytes) }

/-- The write handler of a connection. -/
def writeHandler (p : ℕ) (answer : WriteAnswer) : HttpThread :=
  let c := s.conns p
  if c.writeBuffer = [] then
    -- all is written, and a connection that is closing is closed here
    let s := s.setReactor (s.reactor.removeWrite c.fd)
    if c.status = .closing then s.close p else s
  else
    match answer with
    | .again => s
    | .error | .zero =>
        (s.setReactor (s.reactor.removeWrite c.fd)).setConn p { c with status := .closing }
    | .wrote n =>
        (s.deliver c.fd (c.writeBuffer.take n)).setConn p
          { c with writeBuffer := c.writeBuffer.drop n }

/-- The calls of a timer. -/
def runTimer (d : Deferred) : HttpThread :=
  let t := d.ops.foldl Session.send (s.session (s.conns d.conn))
  s.absorb d.conn d.client t

/-! ## Steps -/

/-- The connection whose callback is next, with the rest of the active descriptors. -/
def nextCallback (dir : Dir) : Option (Option ℕ × List (ℤ × Dir)) :=
  match s.reactor.active with
  | [] => none
  | (fd, d) :: rest =>
      if d = dir then (s.reactor.channels fd).map fun c => (Reactor.callback c dir, rest) else none

/-- Drop the event taken up. -/
def setActive (active : List (ℤ × Dir)) : HttpThread := s.setReactor { s.reactor with active := active }

/-- Take a step, where it is possible. The main thread may queue a client at any time, and a timer
may run between any two callbacks. -/
def step (server : HttpServer) : ThreadEvent → Option HttpThread
  | .arrive fd =>
      if 0 < fd ∧ s.kernel.clients fd = none then
        some { s.setKernel { s.kernel with
            clients := Function.update s.kernel.clients fd (some s.nextClient) } with
          clientQueue := s.clientQueue ++ [fd], nextClient := s.nextClient + 1 }
      else none
  | .listen events =>
      if s.reactor.active = [] ∧ (events.map Prod.fst).Nodup ∧ ∀ e ∈ events, s.kernel.Reports e then
        some (s.setReactor (s.reactor.listen events))
      else none
  | .wakeup => some (s.clientQueue.foldl accept { s with clientQueue := [] })
  | .read env answer =>
      match s.nextCallback .read with
      | none => none
      | some (none, rest) => some (s.setActive rest)
      | some (some p, rest) =>
          if answer.Possible then (s.setActive rest).readHandler server env p answer else none
  | .write answer =>
      match s.nextCallback .write with
      | none => none
      | some (none, rest) => some (s.setActive rest)
      | some (some p, rest) =>
          if answer.Possible (s.conns p).writeBuffer then some ((s.setActive rest).writeHandler p answer)
          else none
  | .timer i =>
      match s.timers[i]? with
      | none => none
      | some d => some ({ s with timers := s.timers.eraseIdx i }.runTimer d)

/-- A worker thread as a transition system. -/
def system (server : HttpServer) : Lts HttpThread ThreadEvent where
  init s := s = start
  step s e t := s.step server e = some t

end HttpThread

end Libio
