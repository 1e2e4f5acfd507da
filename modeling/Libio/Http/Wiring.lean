import Libio.Http.Effects
import Libio.Http.Thread
import Mathlib.Data.List.Nodup

/-! # Which connection serves which descriptor

The invariant of a worker: a descriptor in `hashConnections` is served by one object, whose
callbacks are those of its channel; an object in the pool serves nobody; a queued descriptor is not
served yet. It holds of every reachable state (`wired_of_reachable`), whatever clients, handlers and
the kernel do. -/

namespace Libio

namespace HttpThread

variable {s t : HttpThread}

/-- The invariant. -/
structure Wired (s : HttpThread) : Prop where
  served : ∀ fd p, s.hashConnections fd = some p → 0 < fd ∧ (s.conns p).fd = fd ∧
    (s.conns p).status ≠ .closed ∧ s.kernel.clients fd ≠ none ∧ p < s.next
  channel : ∀ fd p, s.hashConnections fd = some p → ∃ c, s.reactor.channels fd = some c ∧
    c.writecb = some p ∧ (c.readcb = some p ∨ c.readcb = none)
  noChannel : ∀ fd, s.hashConnections fd = none → s.reactor.channels fd = none
  hashed : ∀ p, 0 < (s.conns p).fd → s.hashConnections (s.conns p).fd = some p
  pool : ∀ p ∈ s.emptyConnections, p < s.next ∧ (s.conns p).fd ≤ 0
  pool_nodup : s.emptyConnections.Nodup
  queue : ∀ fd ∈ s.clientQueue,
    0 < fd ∧ s.hashConnections fd = none ∧ s.kernel.clients fd ≠ none
  queue_nodup : s.clientQueue.Nodup
  fresh : ∀ p, s.next ≤ p → s.conns p = {}
  timers : ∀ d ∈ s.timers, d.conn < s.next
  needclean : s.reactor.needclean = []

/-- A worker without clients is wired. -/
theorem wired_start : Wired start where
  served := nofun
  channel := nofun
  noChannel := fun _ _ => rfl
  hashed := nofun
  pool := nofun
  pool_nodup := .nil
  queue := nofun
  queue_nodup := .nil
  fresh := fun _ _ => rfl
  timers := nofun
  needclean := rfl

/-! ## Work on one object -/

/-- `t` is `s` after methods of the object `p` have run, without closing it. -/
structure Serves (s t : HttpThread) (p : ℕ) : Prop where
  conns : ∀ q, q ≠ p → t.conns q = s.conns q
  fd : (t.conns p).fd = (s.conns p).fd
  status : (t.conns p).status = (s.conns p).status ∨ (t.conns p).status = .closing
  reactor : Reactor.Touches (s.conns p).fd s.reactor t.reactor
  hashConnections : t.hashConnections = s.hashConnections
  emptyConnections : t.emptyConnections = s.emptyConnections
  clientQueue : t.clientQueue = s.clientQueue
  next : t.next = s.next
  nextClient : t.nextClient = s.nextClient
  timers : ∀ d ∈ t.timers, d ∈ s.timers ∨ d.conn = p

/-- Working on an object keeps the invariant. -/
theorem Wired.serves (h : Wired s) {p : ℕ} (hs : Serves s t p) (hp : p < s.next) : Wired t := by
  have hfd : ∀ q, (t.conns q).fd = (s.conns q).fd := by
    intro q
    by_cases hq : q = p
    · rw [hq, hs.fd]
    · rw [hs.conns q hq]
  constructor
  case served =>
    intro fd q hq
    rw [hs.hashConnections] at hq
    obtain ⟨hpos, hqfd, hstatus, hclient, hnext⟩ := h.served fd q hq
    refine ⟨hpos, (hfd q).trans hqfd, ?_, ?_, hs.next ▸ hnext⟩
    · by_cases he : q = p
      · subst he
        rcases hs.status with hst | hst <;> rw [hst]
        · exact hstatus
        · decide
      · rw [hs.conns q he]
        exact hstatus
    · rw [kernel, hs.reactor.io.clients]
      exact hclient
  case channel =>
    intro fd q hq
    rw [hs.hashConnections] at hq
    obtain ⟨c, hc, hw, hr⟩ := h.channel fd q hq
    by_cases he : fd = (s.conns p).fd
    · subst he
      obtain ⟨c', hc', hw', hr'⟩ := hs.reactor.channel c hc
      refine ⟨c', hc', hw'.trans hw, ?_⟩
      rcases hr' with hr' | hr'
      · rw [hr']
        exact hr
      · exact .inr hr'
    · exact ⟨c, (hs.reactor.channels fd he).trans hc, hw, hr⟩
  case noChannel =>
    intro fd hfd'
    rw [hs.hashConnections] at hfd'
    have hnone := h.noChannel fd hfd'
    by_cases he : fd = (s.conns p).fd
    · subst he
      exact hs.reactor.noChannel hnone
    · rw [hs.reactor.channels fd he, hnone]
  case hashed =>
    intro q hq
    rw [hfd q, hs.hashConnections]
    exact h.hashed q (hfd q ▸ hq)
  case pool =>
    intro q hq
    rw [hs.emptyConnections] at hq
    rw [hs.next, hfd q]
    exact h.pool q hq
  case pool_nodup => exact hs.emptyConnections ▸ h.pool_nodup
  case queue =>
    intro fd hq
    rw [hs.clientQueue] at hq
    rw [hs.hashConnections, kernel, hs.reactor.io.clients]
    exact h.queue fd hq
  case queue_nodup => exact hs.clientQueue ▸ h.queue_nodup
  case fresh =>
    intro q hq
    rw [hs.next] at hq
    rw [hs.conns q (by omega)]
    exact h.fresh q hq
  case timers =>
    intro d hd
    rw [hs.next]
    rcases hs.timers d hd with hd | hd
    · exact h.timers d hd
    · rw [hd]
      exact hp
  case needclean =>
    rw [hs.reactor.needclean fun c hc => ?_, h.needclean]
    -- a descriptor with a channel is served, and its channel has a write handler
    cases hash : s.hashConnections (s.conns p).fd with
    | none => rw [h.noChannel _ hash] at hc; cases hc
    | some q =>
        obtain ⟨c', hc', hw, -⟩ := h.channel _ q hash
        obtain rfl := Option.some.inj (hc'.symm.trans hc)
        rw [hw]
        exact Option.some_ne_none q

/-- The reactor of the worker is that of the session. -/
theorem absorb_reactor (s : HttpThread) (p : ℕ) (client : Option ℕ) (t : Session) :
    (s.absorb p client t).reactor = t.reactor := by
  cases client <;> rfl

/-- The object of the session is in its place. -/
theorem absorb_conns_self (s : HttpThread) (p : ℕ) (client : Option ℕ) (t : Session) :
    (s.absorb p client t).conns p = t.conn := by
  cases client <;> simp [absorb, credit, setReactor, setConn]

/-- What the methods of an object have done is taken over. -/
theorem serves_absorb {p : ℕ} {c : HttpConnection} {client : Option ℕ} {t : Session}
    (hfd : c.fd = (s.conns p).fd)
    (hstatus : c.status = (s.conns p).status ∨ c.status = .closing)
    (ht : Session.Works (s.session c) t) : Serves s (s.absorb p client t) p := by
  have hcredit : ∀ (u : HttpThread) (bytes : Str), Serves s u p → Serves s (u.credit client bytes) p := by
    intro u bytes hu
    cases client with
    | none => exact hu
    | some g => exact { hu with }
  refine hcredit _ _ {
    conns := fun q hq => Function.update_of_ne hq _ _
    fd := ?_
    status := ?_
    reactor := hfd ▸ ht.reactor
    hashConnections := rfl
    emptyConnections := rfl
    clientQueue := rfl
    next := rfl
    nextClient := rfl
    timers := fun d hd => ?_ }
  · simp only [setReactor, setConn, Function.update_self]
    exact ht.fd.trans hfd
  · simp only [setReactor, setConn, Function.update_self]
    rcases ht.status with hst | hst
    · rw [hst]
      exact hstatus
    · exact .inr hst
  · rcases List.mem_append.mp hd with hd | hd
    · exact .inl hd
    · obtain ⟨ops, -, rfl⟩ := List.mem_map.mp hd
      exact .inr rfl

/-- Nothing is serving a client. -/
theorem Serves.refl (s : HttpThread) (p : ℕ) : Serves s s p where
  conns _ _ := rfl
  fd := rfl
  status := .inl rfl
  reactor := .refl _ _
  hashConnections := rfl
  emptyConnections := rfl
  clientQueue := rfl
  next := rfl
  nextClient := rfl
  timers _ hd := .inl hd

/-- A change of the interest of the object's descriptor, and of its status to closing. -/
theorem serves_interest {p : ℕ} {re : Reactor ℕ}
    (hre : Reactor.Touches (s.conns p).fd s.reactor re) {c : HttpConnection}
    (hfd : c.fd = (s.conns p).fd)
    (hstatus : c.status = (s.conns p).status ∨ c.status = .closing) :
    Serves s ((s.setReactor re).setConn p c) p where
  conns q hq := Function.update_of_ne hq _ _
  fd := by simp [setConn, hfd]
  status := by simpa [setConn] using hstatus
  reactor := hre
  hashConnections := rfl
  emptyConnections := rfl
  clientQueue := rfl
  next := rfl
  nextClient := rfl
  timers _ hd := .inl hd

/-- Putting an object in its own place changes nothing. -/
theorem setConn_self (s : HttpThread) (p : ℕ) : s.setConn p (s.conns p) = s := by
  unfold setConn
  rw [Function.update_eq_self]

/-- A change of the interest of the object's descriptor alone. -/
theorem serves_setReactor {p : ℕ} {re : Reactor ℕ}
    (hre : Reactor.Touches (s.conns p).fd s.reactor re) : Serves s (s.setReactor re) p := by
  rw [← setConn_self (s.setReactor re) p]
  exact serves_interest hre rfl (.inl rfl)

/-- **The read handler** works on its object. -/
theorem serves_readHandler {server : HttpServer} {env : Env} {p : ℕ} {answer : ReadAnswer}
    (h : s.readHandler server env p answer = some t) : Serves s t p := by
  cases answer with
  | again =>
      obtain rfl := Option.some.inj h
      exact .refl _ p
  | error =>
      obtain rfl := Option.some.inj h
      exact serves_setReactor Reactor.touches_removeRead
  | eof =>
      obtain rfl := Option.some.inj h
      exact serves_interest Reactor.touches_removeRead rfl (.inr rfl)
  | data bytes =>
      unfold readHandler at h
      simp only at h
      split at h
      · cases h
      · next t' ht' =>
          obtain rfl := Option.some.inj h
          have hworks := Session.works_parseRequest ht'
          have hserves : Serves s (s.absorb p (s.readSource p) t') p := by
            refine serves_absorb ?_ ?_ hworks
            · rfl
            · exact .inl rfl
          exact { hserves with }

/-- **The write handler** works on its object, or it closes it, which it does when nothing is left
to write. -/
theorem writeHandler_cases (p : ℕ) (answer : WriteAnswer) :
    ((s.conns p).writeBuffer = [] ∧ (s.conns p).status = .closing ∧
      s.writeHandler p answer =
        (s.setReactor (s.reactor.removeWrite (s.conns p).fd)).close p) ∨
    Serves s (s.writeHandler p answer) p := by
  unfold writeHandler
  simp only
  by_cases hempty : (s.conns p).writeBuffer = []
  · rw [if_pos hempty]
    by_cases hclosing : (s.conns p).status = .closing
    · rw [if_pos hclosing]
      exact .inl ⟨hempty, hclosing, rfl⟩
    · rw [if_neg hclosing]
      exact .inr (serves_setReactor Reactor.touches_removeWrite)
  · rw [if_neg hempty]
    refine .inr ?_
    cases answer with
    | again => exact .refl s p
    | error => exact serves_interest Reactor.touches_removeWrite rfl (.inr rfl)
    | zero => exact serves_interest Reactor.touches_removeWrite rfl (.inr rfl)
    | wrote n =>
        have hre : Reactor.Touches (s.conns p).fd s.reactor s.reactor := .refl _ _
        have h : Serves s (s.setConn p { s.conns p with
            writeBuffer := (s.conns p).writeBuffer.drop n }) p :=
          serves_interest hre rfl (.inl rfl)
        simp only [deliver]
        split
        · exact h
        · exact { h with }

/-- **A timer** works on the object it was given. -/
theorem serves_runTimer (d : Deferred) : Serves s (s.runTimer d) d.conn :=
  serves_absorb rfl (.inl rfl) (Session.works_foldl_send _ _)

/-! ## Closing -/

/-- What an object is when it has been closed. -/
def closedConn : HttpConnection :=
  { fd := -1, status := .closed, readBuffer := [], writeBuffer := [], requests := [] }

/-- Closing the object that serves a descriptor. -/
theorem close_eq {p : ℕ} (hpos : 0 < (s.conns p).fd)
    (hash : s.hashConnections (s.conns p).fd = some p) :
    s.close p = { s with
      conns := Function.update s.conns p closedConn
      hashConnections := Function.update s.hashConnections (s.conns p).fd none
      emptyConnections := s.emptyConnections ++ [p]
      reactor := { s.reactor with
        channels := Function.update s.reactor.channels (s.conns p).fd none
        io := { s.reactor.io with kernel := s.kernel.close (s.conns p).fd } } } := by
  unfold close
  simp only
  rw [if_pos hpos]
  simp only [setReactor, setKernel, releaseConnection, Reactor.erase, Reactor.setChannel, hash]
  rfl

/-- Closing keeps the invariant. -/
theorem Wired.close (h : Wired s) {p : ℕ} (hpos : 0 < (s.conns p).fd) : Wired (s.close p) := by
  have hash := h.hashed p hpos
  have hnext := (h.served _ p hash).2.2.2.2
  rw [close_eq hpos hash]
  -- the other descriptors are served by other objects
  have hother : ∀ fd q, Function.update s.hashConnections (s.conns p).fd none fd = some q →
      fd ≠ (s.conns p).fd ∧ q ≠ p ∧ s.hashConnections fd = some q := by
    intro fd q hq
    have hne : fd ≠ (s.conns p).fd := by
      rintro rfl
      rw [Function.update_self] at hq
      cases hq
    rw [Function.update_of_ne hne] at hq
    refine ⟨hne, ?_, hq⟩
    rintro rfl
    exact hne (h.served fd _ hq).2.1.symm
  constructor
  case served =>
    intro fd q hq
    obtain ⟨hne, hqp, hq⟩ := hother fd q hq
    obtain ⟨hfd, hqfd, hstatus, hclient, hqnext⟩ := h.served fd q hq
    refine ⟨hfd, ?_, ?_, ?_, hqnext⟩
    · simpa [hqp] using hqfd
    · simpa [hqp] using hstatus
    · simpa [kernel, Kernel.close, hne] using hclient
  case channel =>
    intro fd q hq
    obtain ⟨hne, -, hq⟩ := hother fd q hq
    simpa [hne] using h.channel fd q hq
  case noChannel =>
    intro fd hfd
    by_cases he : fd = (s.conns p).fd
    · simp [he]
    · simp only [Function.update_of_ne he] at hfd ⊢
      exact h.noChannel fd hfd
  case hashed =>
    intro q hq
    by_cases hqp : q = p
    · simp [hqp, closedConn] at hq
    · simp only [Function.update_of_ne hqp] at hq ⊢
      have hq' := h.hashed q hq
      have hne : (s.conns q).fd ≠ (s.conns p).fd := by
        intro he
        rw [he, hash] at hq'
        exact hqp (Option.some.inj hq').symm
      rw [Function.update_of_ne hne]
      exact hq'
  case pool =>
    intro q hq
    rcases List.mem_append.mp hq with hq | hq
    · obtain ⟨hqnext, hqfd⟩ := h.pool q hq
      have hqp : q ≠ p := by
        rintro rfl
        omega
      exact ⟨hqnext, by simpa [hqp] using hqfd⟩
    · obtain rfl := List.mem_singleton.mp hq
      exact ⟨hnext, by simp [closedConn]⟩
  case pool_nodup =>
    refine List.nodup_append.mpr ⟨h.pool_nodup, List.nodup_singleton p, ?_⟩
    rintro q hq r hr rfl
    obtain rfl := List.mem_singleton.mp hr
    have := (h.pool _ hq).2
    omega
  case queue =>
    intro fd hq
    obtain ⟨hfd, hnone, hclient⟩ := h.queue fd hq
    have hne : fd ≠ (s.conns p).fd := by
      rintro rfl
      rw [hash] at hnone
      cases hnone
    refine ⟨hfd, by simpa [hne] using hnone, by simpa [kernel, Kernel.close, hne] using hclient⟩
  case queue_nodup => exact h.queue_nodup
  case fresh =>
    intro q hq
    have hqp : q ≠ p := by
      rintro rfl
      exact absurd hnext (not_lt.mpr hq)
    simpa [hqp] using h.fresh q hq
  case timers => exact h.timers
  case needclean => exact h.needclean

/-! ## Accepting -/

/-- The object that takes the next client: the first of the pool, or a new one. -/
def nextConn (s : HttpThread) : ℕ := s.emptyConnections.headD s.next

/-- The reactor after a descriptor has been set up for an object. -/
def openReactor (re : Reactor ℕ) (fd : ℤ) (p : ℕ) : Reactor ℕ :=
  ((((re.setReadHandler fd p).removeRead fd).setWriteHandler fd p).removeWrite fd).addRead fd

/-- Accepting a client. -/
theorem Wired.accept_eq (h : Wired s) (fd : ℤ) :
    s.accept fd = { s with
      conns := Function.update s.conns s.nextConn
        { s.conns s.nextConn with fd := fd, status := .connected }
      next := if s.emptyConnections = [] then s.next + 1 else s.next
      emptyConnections := s.emptyConnections.tail
      reactor := openReactor s.reactor fd s.nextConn
      hashConnections := Function.update s.hashConnections fd (some s.nextConn) } := by
  unfold accept makeConnection nextConn
  cases hpool : s.emptyConnections with
  | nil =>
      have hfresh := h.fresh s.next le_rfl
      simp only [List.headD_nil, List.tail_nil, if_true, setupNewEvents, setConn, setReactor,
        Function.update_self, hfresh]
      rw [← hpool]
      rfl
  | cons p rest =>
      simp only [List.headD_cons, List.tail_cons, reduceCtorEq, if_false, setupNewEvents, setConn,
        setReactor, Function.update_self]
      rfl

/-- The interest after a descriptor has been set up: both directions are added and removed, then
reading is added. -/
def openIo (io : Epoll) (fd : ℤ) : Epoll :=
  (((((io.add fd .RD).2.remove fd .RD).2.add fd .WR).2.remove fd .WR).2.add fd .RD).2

/-- What opening a client does to the reactor. -/
theorem openReactor_eq (re : Reactor ℕ) (fd : ℤ) (p : ℕ) :
    openReactor re fd p = { re with
      channels := Function.update re.channels fd (some { readcb := some p, writecb := some p })
      io := openIo re.io fd } := by
  have hchannels : (openReactor re fd p).channels =
      Function.update re.channels fd (some { readcb := some p, writecb := some p }) := by
    funext fd'
    by_cases he : fd' = fd
    · subst he
      simp [openReactor, Reactor.setReadHandler, Reactor.setWriteHandler, Reactor.initChannel,
        Reactor.setChannel, Reactor.addRead, Reactor.addWrite, Reactor.removeRead,
        Reactor.removeWrite]
    · simp [openReactor, Reactor.setReadHandler, Reactor.setWriteHandler, Reactor.initChannel,
        Reactor.setChannel, Reactor.addRead, Reactor.addWrite, Reactor.removeRead,
        Reactor.removeWrite, he]
  rw [← hchannels]
  rfl

/-- It touches the events of this descriptor alone. -/
theorem touches_openIo (io : Epoll) (fd : ℤ) : Epoll.Touches fd io (openIo io fd) :=
  (((Epoll.touches_add.trans Epoll.touches_remove).trans Epoll.touches_add).trans
    Epoll.touches_remove).trans Epoll.touches_add

/-- A client that may be accepted. -/
def Acceptable (s : HttpThread) (fd : ℤ) : Prop :=
  0 < fd ∧ s.hashConnections fd = none ∧ s.kernel.clients fd ≠ none

/-- The object for the next client serves nobody and leaves the pool. -/
theorem Wired.nextConn (h : Wired s) : (s.conns s.nextConn).fd ≤ 0 ∧
    s.nextConn < (if s.emptyConnections = [] then s.next + 1 else s.next) ∧
      s.nextConn ∉ s.emptyConnections.tail := by
  unfold HttpThread.nextConn
  cases hpool : s.emptyConnections with
  | nil =>
      have hfresh := h.fresh s.next le_rfl
      simp [hfresh]
  | cons p rest =>
      obtain ⟨hnext, hfd⟩ := h.pool p (by simp [hpool])
      have hnodup := hpool ▸ h.pool_nodup
      exact ⟨hfd, by simpa using hnext, (List.nodup_cons.mp hnodup).1⟩

/-- Accepting a client keeps the invariant. -/
theorem Wired.accept (h : Wired s) {fd : ℤ} (ha : s.Acceptable fd) (hq : fd ∉ s.clientQueue) :
    Wired (s.accept fd) := by
  obtain ⟨hpos, hnone, hclient⟩ := ha
  obtain ⟨hidle, hlt, htail⟩ := h.nextConn
  rw [h.accept_eq fd, openReactor_eq]
  generalize hp : s.nextConn = p at hidle hlt htail ⊢
  have hclients : (openIo s.reactor.io fd).kernel.clients = s.kernel.clients :=
    (touches_openIo s.reactor.io fd).clients
  have hle : s.next ≤ if s.emptyConnections = [] then s.next + 1 else s.next := by
    split <;> omega
  -- the other descriptors are served by other objects, as before
  have hother : ∀ fd' q, Function.update s.hashConnections fd (some p) fd' = some q →
      (fd' = fd ∧ q = p) ∨ (fd' ≠ fd ∧ q ≠ p ∧ s.hashConnections fd' = some q) := by
    intro fd' q hq
    by_cases he : fd' = fd
    · subst he
      rw [Function.update_self] at hq
      exact .inl ⟨rfl, (Option.some.inj hq).symm⟩
    · rw [Function.update_of_ne he] at hq
      refine .inr ⟨he, ?_, hq⟩
      rintro rfl
      have := h.served fd' _ hq
      omega
  constructor
  case served =>
    intro fd' q hq
    rcases hother fd' q hq with ⟨rfl, rfl⟩ | ⟨he, hqp, hq⟩
    · refine ⟨hpos, by simp, by simp, ?_, hlt⟩
      rw [kernel, hclients]
      exact hclient
    · obtain ⟨hfd', hqfd, hstatus, hc, hqnext⟩ := h.served fd' q hq
      refine ⟨hfd', by simpa [hqp] using hqfd, by simpa [hqp] using hstatus, ?_, hqnext.trans_le hle⟩
      rw [kernel, hclients]
      exact hc
  case channel =>
    intro fd' q hq
    rcases hother fd' q hq with ⟨rfl, rfl⟩ | ⟨he, -, hq⟩
    · exact ⟨_, Function.update_self fd' _ _, rfl, .inl rfl⟩
    · simpa [he] using h.channel fd' q hq
  case noChannel =>
    intro fd' hfd'
    have he : fd' ≠ fd := by
      rintro rfl
      simp at hfd'
    simp only [Function.update_of_ne he] at hfd' ⊢
    exact h.noChannel fd' hfd'
  case hashed =>
    intro q hq
    by_cases hqp : q = p
    · subst hqp
      simp
    · simp only [Function.update_of_ne hqp] at hq ⊢
      have hq' := h.hashed q hq
      have he : (s.conns q).fd ≠ fd := by
        intro he
        rw [he, hnone] at hq'
        cases hq'
      rw [Function.update_of_ne he]
      exact hq'
  case pool =>
    intro q hq
    have hmem := List.mem_of_mem_tail hq
    have hqp : q ≠ p := by
      rintro rfl
      exact htail hq
    obtain ⟨hqnext, hqfd⟩ := h.pool q hmem
    exact ⟨hqnext.trans_le hle, by simpa [hqp] using hqfd⟩
  case pool_nodup => exact h.pool_nodup.tail
  case queue =>
    intro fd' hq'
    obtain ⟨hfd', hnone', hc⟩ := h.queue fd' hq'
    have he : fd' ≠ fd := by
      rintro rfl
      exact hq hq'
    refine ⟨hfd', by simpa [he] using hnone', ?_⟩
    rw [kernel, hclients]
    exact hc
  case queue_nodup => exact h.queue_nodup
  case fresh =>
    intro q hq
    have hqp : q ≠ p := by
      rintro rfl
      exact absurd hlt (not_lt.mpr hq)
    simpa [hqp] using h.fresh q (hle.trans hq)
  case timers => exact fun d hd => (h.timers d hd).trans_le hle
  case needclean => exact h.needclean

/-- **Emptying the queue**: what accepting a client keeps, is kept. -/
theorem Wired.foldl_accept {P : HttpThread → Prop}
    (hP : ∀ s fd, Wired s → s.Acceptable fd → P s → P (s.accept fd)) {fds : List ℤ}
    (h : Wired s) (hqueue : s.clientQueue = []) (hfds : ∀ fd ∈ fds, s.Acceptable fd)
    (hnodup : fds.Nodup) (hs : P s) :
    Wired (fds.foldl HttpThread.accept s) ∧ P (fds.foldl HttpThread.accept s) := by
  induction fds generalizing s with
  | nil => exact ⟨h, hs⟩
  | cons fd fds ih =>
      obtain ⟨hfd, hrest⟩ := List.nodup_cons.mp hnodup
      have ha := hfds fd (by simp)
      have hacc : Wired (s.accept fd) := h.accept ha (by simp [hqueue])
      refine ih hacc ?_ ?_ hrest (hP s fd h ha hs)
      · rw [h.accept_eq fd]
        exact hqueue
      · intro fd' hfd'
        obtain ⟨hpos, hnone, hclient⟩ := hfds fd' (by simp [hfd'])
        have he : fd' ≠ fd := by
          rintro rfl
          exact hfd hfd'
        rw [h.accept_eq fd, openReactor_eq]
        refine ⟨hpos, by simpa [he] using hnone, ?_⟩
        rw [kernel, (touches_openIo s.reactor.io fd).clients]
        exact hclient

/-! ## Steps -/

/-- Events that are to be dispatched make no difference. -/
theorem Wired.setActive (h : Wired s) (active : List (ℤ × Dir)) : Wired (s.setActive active) :=
  ⟨h.served, h.channel, h.noChannel, h.hashed, h.pool, h.pool_nodup, h.queue, h.queue_nodup, h.fresh,
    h.timers, h.needclean⟩

/-- The object whose callback is next serves its descriptor. -/
theorem Wired.nextCallback (h : Wired s) {dir : Dir} {p : ℕ} {rest : List (ℤ × Dir)}
    (hp : s.nextCallback dir = some (some p, rest)) :
    s.hashConnections (s.conns p).fd = some p := by
  unfold HttpThread.nextCallback at hp
  split at hp
  · cases hp
  · next fd d rest' _ =>
      split at hp
      · obtain ⟨c, hc, hcb⟩ := Option.map_eq_some_iff.mp hp
        obtain ⟨hcb, -⟩ := Prod.mk.inj hcb
        cases hash : s.hashConnections fd with
        | none => rw [h.noChannel fd hash] at hc; cases hc
        | some q =>
            obtain ⟨c', hc', hw, hr⟩ := h.channel fd q hash
            obtain rfl := Option.some.inj (hc'.symm.trans hc)
            have hqp : q = p := by
              cases dir with
              | read =>
                  rcases hr with hr | hr
                  · exact Option.some.inj (hr.symm.trans hcb)
                  · exact absurd (hr.symm.trans hcb) nofun
              | write => exact Option.some.inj (hw.symm.trans hcb)
            subst hqp
            rw [(h.served fd q hash).2.1, hash]
      · cases hp

/-- The write handler keeps the invariant. -/
theorem Wired.writeHandler (h : Wired s) {p : ℕ} (hash : s.hashConnections (s.conns p).fd = some p)
    (answer : WriteAnswer) : Wired (s.writeHandler p answer) := by
  have hserved := h.served _ p hash
  rcases writeHandler_cases p answer with ⟨-, -, heq⟩ | hs
  · rw [heq]
    have hs := serves_setReactor (s := s) (p := p) Reactor.touches_removeWrite
    exact (h.serves hs hserved.2.2.2.2).close hserved.1
  · exact h.serves hs hserved.2.2.2.2

/-- The state in which a timer runs. -/
theorem Wired.dropTimer (h : Wired s) (i : ℕ) : Wired { s with timers := s.timers.eraseIdx i } :=
  ⟨h.served, h.channel, h.noChannel, h.hashed, h.pool, h.pool_nodup, h.queue, h.queue_nodup, h.fresh,
    fun d hd => h.timers d (List.mem_of_mem_eraseIdx hd), h.needclean⟩

/-- The events that `listen` finds active. -/
theorem listen_eq (h : Wired s) (events : List (ℤ × Mask)) :
    s.reactor.listen events = { s.reactor with active := events.flatMap Reactor.eventsOf } := by
  simp [Reactor.listen, Reactor.clean, h.needclean]

/-- A client arrives. -/
theorem Wired.arrive (h : Wired s) {fd : ℤ} (hpos : 0 < fd) (hfree : s.kernel.clients fd = none) :
    Wired { s.setKernel { s.kernel with
        clients := Function.update s.kernel.clients fd (some s.nextClient) } with
      clientQueue := s.clientQueue ++ [fd], nextClient := s.nextClient + 1 } := by
  have hnone : s.hashConnections fd = none := by
    cases hash : s.hashConnections fd with
    | none => rfl
    | some p => exact absurd hfree (h.served fd p hash).2.2.2.1
  have hqueue : fd ∉ s.clientQueue := fun hq => (h.queue fd hq).2.2 hfree
  have hopen : ∀ fd', s.kernel.clients fd' ≠ none →
      Function.update s.kernel.clients fd (some s.nextClient) fd' ≠ none := by
    intro fd' hc
    by_cases he : fd' = fd
    · simp [he]
    · rwa [Function.update_of_ne he]
  constructor
  case served =>
    intro fd' p hp
    obtain ⟨hfd', hpfd, hstatus, hc, hnext⟩ := h.served fd' p hp
    exact ⟨hfd', hpfd, hstatus, hopen fd' hc, hnext⟩
  case channel => exact h.channel
  case noChannel => exact h.noChannel
  case hashed => exact h.hashed
  case pool => exact h.pool
  case pool_nodup => exact h.pool_nodup
  case queue =>
    intro fd' hq
    rcases List.mem_append.mp hq with hq | hq
    · obtain ⟨hfd', hnone', hc⟩ := h.queue fd' hq
      exact ⟨hfd', hnone', hopen fd' hc⟩
    · obtain rfl := List.mem_singleton.mp hq
      exact ⟨hpos, hnone, by simp [kernel, setKernel]⟩
  case queue_nodup =>
    refine List.nodup_append.mpr ⟨h.queue_nodup, List.nodup_singleton fd, ?_⟩
    rintro fd' hq' fd'' hq'' rfl
    exact hqueue (List.mem_singleton.mp hq'' ▸ hq')
  case fresh => exact h.fresh
  case timers => exact h.timers
  case needclean => exact h.needclean

/-- The queue is taken out before it is worked off. -/
theorem Wired.takeQueue (h : Wired s) : Wired { s with clientQueue := [] } :=
  ⟨h.served, h.channel, h.noChannel, h.hashed, h.pool, h.pool_nodup, nofun, .nil, h.fresh, h.timers,
    h.needclean⟩

/-- What a step of a worker can be: only the events that are left of the loop change, or one callback
is run. -/
inductive Stepped (server : HttpServer) (s : HttpThread) : ThreadEvent → HttpThread → Prop
  | arrive {fd : ℤ} (hpos : 0 < fd) (hfree : s.kernel.clients fd = none) :
      Stepped server s (.arrive fd) { s.setKernel { s.kernel with
          clients := Function.update s.kernel.clients fd (some s.nextClient) } with
        clientQueue := s.clientQueue ++ [fd], nextClient := s.nextClient + 1 }
  | active (e : ThreadEvent) (active : List (ℤ × Dir)) : Stepped server s e (s.setActive active)
  | wakeup : Stepped server s .wakeup (s.clientQueue.foldl accept { s with clientQueue := [] })
  | read {env : Env} {answer : ReadAnswer} {p : ℕ} {rest : List (ℤ × Dir)} {t : HttpThread}
      (hnext : s.nextCallback .read = some (some p, rest))
      (hash : s.hashConnections (s.conns p).fd = some p) (hposs : answer.Possible)
      (ht : (s.setActive rest).readHandler server env p answer = some t) :
      Stepped server s (.read env answer) t
  | write {answer : WriteAnswer} {p : ℕ} {rest : List (ℤ × Dir)}
      (hnext : s.nextCallback .write = some (some p, rest))
      (hash : s.hashConnections (s.conns p).fd = some p) :
      Stepped server s (.write answer) ((s.setActive rest).writeHandler p answer)
  | timer {i : ℕ} {d : Deferred} (hd : s.timers[i]? = some d) :
      Stepped server s (.timer i) ({ s with timers := s.timers.eraseIdx i }.runTimer d)

/-- **Inversion** of a step. -/
theorem Wired.stepped (h : Wired s) {server : HttpServer} {e : ThreadEvent}
    (ht : s.step server e = some t) : Stepped server s e t := by
  cases e with
  | arrive fd =>
      simp only [step, Option.ite_none_right_eq_some, Option.some.injEq] at ht
      obtain ⟨⟨hpos, hfree⟩, rfl⟩ := ht
      exact .arrive hpos hfree
  | listen events =>
      simp only [step, Option.ite_none_right_eq_some, Option.some.injEq] at ht
      obtain ⟨-, rfl⟩ := ht
      rw [listen_eq h]
      exact .active _ _
  | wakeup =>
      obtain rfl := Option.some.inj ht
      exact .wakeup
  | read env answer =>
      simp only [step] at ht
      split at ht
      · cases ht
      · next rest _ =>
          obtain rfl := Option.some.inj ht
          exact .active _ rest
      · next p rest hp =>
          obtain ⟨hposs, ht⟩ := Option.ite_none_right_eq_some.mp ht
          exact .read hp (h.nextCallback hp) hposs ht
  | write answer =>
      simp only [step] at ht
      split at ht
      · cases ht
      · next rest _ =>
          obtain rfl := Option.some.inj ht
          exact .active _ rest
      · next p rest hp =>
          obtain ⟨-, ht⟩ := Option.ite_none_right_eq_some.mp ht
          obtain rfl := Option.some.inj ht
          exact .write hp (h.nextCallback hp)
  | timer i =>
      simp only [step] at ht
      cases hd : s.timers[i]? with
      | none => rw [hd] at ht; cases ht
      | some d =>
          rw [hd] at ht
          obtain rfl := Option.some.inj ht
          exact .timer hd

/-- **Every step keeps the invariant.** -/
theorem Wired.step (h : Wired s) {server : HttpServer} {e : ThreadEvent}
    (ht : s.step server e = some t) : Wired t := by
  cases h.stepped ht with
  | arrive hpos hfree => exact h.arrive hpos hfree
  | active _ active => exact h.setActive active
  | wakeup =>
      exact (h.takeQueue.foldl_accept (P := fun _ => True) (fun _ _ _ _ _ => trivial) rfl h.queue
        h.queue_nodup trivial).1
  | @read _ _ p rest _ hnext hash hposs ht =>
      exact (h.setActive rest).serves (serves_readHandler ht) (h.served _ p hash).2.2.2.2
  | @write answer _ rest hnext hash => exact (h.setActive rest).writeHandler hash answer
  | @timer i d hd =>
      exact (h.dropTimer i).serves (serves_runTimer d) (h.timers d (List.mem_of_getElem? hd))

/-- **Every reachable worker** has its connections wired. -/
theorem wired_of_reachable {server : HttpServer} (h : (system server).Reachable s) : Wired s :=
  h.invariant (fun _ hs => hs ▸ wired_start) fun _ _ _ hs ht => hs.step ht

end HttpThread

end Libio
