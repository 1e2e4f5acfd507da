import Libio.Http.Isolation

/-! # What becomes of a client

A client that has arrived waits in the queue of its worker, is served by an object, or is gone. It
waits without having been answered; while it is served, the write buffer of the object is all that it
is still owed; and a worker closes a connection only when nothing is left to write, so a client that
is gone got every byte of the replies to its requests. -/

namespace Libio

namespace HttpThread

variable {s t : HttpThread}

/-! ## The queue -/

/-- A client whose descriptor is open is served or waits in the queue. -/
def Kept (s : HttpThread) : Prop :=
  ∀ fd, s.kernel.clients fd ≠ none → s.hashConnections fd ≠ none ∨ fd ∈ s.clientQueue

/-- Taking an object for a client enters nothing into the map. -/
theorem hashConnections_makeConnection (s : HttpThread) (fd : ℤ) :
    (s.makeConnection fd).2.hashConnections = s.hashConnections := by
  unfold makeConnection
  split
  · rfl
  · rfl

/-- The descriptors in the map behind the acceptance of a client. -/
theorem hashed_accept (s : HttpThread) (fd fd' : ℤ) :
    (s.accept fd).hashConnections fd' ≠ none ↔ fd' = fd ∨ s.hashConnections fd' ≠ none := by
  show Function.update (s.makeConnection fd).2.hashConnections fd (some (s.makeConnection fd).1) fd' ≠
    none ↔ _
  rw [hashConnections_makeConnection]
  by_cases he : fd' = fd
  · simp [he]
  · simp [he]

/-- Emptying the queue makes connections of all the clients in it. -/
theorem hashed_foldl_accept (s : HttpThread) (fds : List ℤ) (fd : ℤ) :
    (fds.foldl accept s).hashConnections fd ≠ none ↔ fd ∈ fds ∨ s.hashConnections fd ≠ none := by
  induction fds generalizing s with
  | nil => simp
  | cons fd' fds ih =>
      rw [List.foldl_cons, ih, hashed_accept, List.mem_cons]
      tauto

/-! ## What a step leaves alone -/

/-- `t` has the same open descriptors, and the same clients have arrived. -/
structure SameClients (s t : HttpThread) : Prop where
  clients : t.kernel.clients = s.kernel.clients
  nextClient : t.nextClient = s.nextClient

/-- The record of a client is the same in `t`. -/
structure SameRecord (s t : HttpThread) (g : ℕ) : Prop where
  sent : t.sent g = s.sent g
  replies : t.replies g = s.replies g

/-- Serving a client leaves the clients alone. -/
theorem Serves.sameClients {p : ℕ} (hs : Serves s t p) : SameClients s t :=
  ⟨hs.reactor.io.clients, hs.nextClient⟩

/-- The acceptance of a client leaves the other ones alone. -/
theorem SameClients.accept (hc : SameClients s t) (h : Wired t) (fd : ℤ) :
    SameClients s (t.accept fd) := by
  rw [h.accept_eq fd, openReactor_eq]
  exact ⟨(touches_openIo t.reactor.io fd).clients.trans hc.clients, hc.nextClient⟩

/-- It leaves the records of the others alone. -/
theorem SameRecord.accept {g : ℕ} (hg : SameRecord s t g) (h : Wired t) (fd : ℤ) :
    SameRecord s (t.accept fd) g := by
  rw [h.accept_eq fd]
  exact ⟨hg.sent, hg.replies⟩

/-- What the methods of an object have appended is recorded for one client. -/
theorem sameRecord_absorb {p g : ℕ} {client : Option ℕ} (u : Session) (hne : client ≠ some g) :
    SameRecord s (s.absorb p client u) g := by
  cases client with
  | none => exact ⟨rfl, rfl⟩
  | some g' =>
      have hg : g ≠ g' := fun he => hne (he ▸ rfl)
      exact ⟨rfl, Function.update_of_ne hg _ _⟩

/-- The read handler answers the client at the other end. -/
theorem Isolated.sameRecord_readHandler (h : Isolated s) (hw : Wired s) {server : HttpServer} {env : Env}
    {p g : ℕ} {answer : ReadAnswer} (hash : s.hashConnections (s.conns p).fd = some p)
    (hgone : ∀ fd, s.kernel.clients fd ≠ some g)
    (ht : s.readHandler server env p answer = some t) : SameRecord s t g := by
  obtain ⟨g', hclient⟩ := Option.ne_none_iff_exists'.mp (hw.served _ p hash).2.2.2.1
  cases answer with
  | again =>
      obtain rfl := Option.some.inj ht
      exact ⟨rfl, rfl⟩
  | error =>
      obtain rfl := Option.some.inj ht
      exact ⟨rfl, rfl⟩
  | eof =>
      obtain rfl := Option.some.inj ht
      exact ⟨rfl, rfl⟩
  | data bytes =>
      -- the bytes come from the client at this descriptor, who is not gone
      have hsource : s.readSource p = some g' := h.readSource hash hclient
      have hne : s.readSource p ≠ some g := by
        rw [hsource, ← hclient]
        exact hgone _
      unfold HttpThread.readHandler at ht
      simp only at ht
      split at ht
      · cases ht
      · next u _ =>
          obtain rfl := Option.some.inj ht
          obtain ⟨hsent, hreplies⟩ := sameRecord_absorb (s := s) (p := p) u hne
          exact ⟨hsent, hreplies⟩

/-- Closing an object leaves the record alone. -/
theorem sameRecord_close (s : HttpThread) (p g : ℕ) : SameRecord s (s.close p) g := by
  simp only [close, releaseConnection, setReactor, setKernel, setConn]
  split
  · split <;> exact ⟨rfl, rfl⟩
  · exact ⟨rfl, rfl⟩

/-- The write handler hands bytes to the client at the other end. -/
theorem sameRecord_writeHandler {p g : ℕ} (answer : WriteAnswer)
    (hgone : ∀ fd, s.kernel.clients fd ≠ some g) : SameRecord s (s.writeHandler p answer) g := by
  unfold HttpThread.writeHandler
  simp only
  split
  · split
    · obtain ⟨hsent, hreplies⟩ := sameRecord_close (s.setReactor (s.reactor.removeWrite (s.conns p).fd)) p g
      exact ⟨hsent, hreplies⟩
    · exact ⟨rfl, rfl⟩
  · cases answer with
    | again => exact ⟨rfl, rfl⟩
    | error => exact ⟨rfl, rfl⟩
    | zero => exact ⟨rfl, rfl⟩
    | wrote n =>
        cases hclient : s.kernel.clients (s.conns p).fd with
        | none => simp only [deliver, hclient]; exact ⟨rfl, rfl⟩
        | some g' =>
            have hne : g ≠ g' := fun he => hgone _ (he ▸ hclient)
            simp only [deliver_eq hclient]
            exact ⟨Function.update_of_ne hne _ _, rfl⟩

/-- A timer answers the client it was set for, if it has something to say. -/
theorem sameRecord_runTimer {d : Deferred} {g : ℕ}
    (hd : written (eventsOf d.ops) = [] ∨
      (0 < (s.conns d.conn).fd ∧ s.kernel.clients (s.conns d.conn).fd = d.client))
    (hgone : ∀ fd, s.kernel.clients fd ≠ some g) : SameRecord s (s.runTimer d) g := by
  rcases hd with hsilent | ⟨-, hclient⟩
  · obtain ⟨re, timers, heq⟩ := runTimer_silent (s := s) hsilent
    rw [heq]
    exact ⟨rfl, rfl⟩
  · refine sameRecord_absorb _ ?_
    rw [← hclient]
    exact hgone _

/-! ## Steps -/

/-- Every client that has arrived and is gone got every byte of the replies to its requests. -/
def Paid (s : HttpThread) : Prop :=
  ∀ g, g < s.nextClient → (∀ fd, s.kernel.clients fd ≠ some g) → s.sent g = s.replies g

/-- Between steps at which nobody comes or goes, the record of the clients that are gone stays. -/
theorem Paid.of_same (h : Paid s) (hc : SameClients s t)
    (hr : ∀ g, (∀ fd, s.kernel.clients fd ≠ some g) → SameRecord s t g) : Paid t := by
  intro g hlt hgone
  rw [hc.clients] at hgone
  rw [hc.nextClient] at hlt
  obtain ⟨hsent, hreplies⟩ := hr g hgone
  rw [hsent, hreplies]
  exact h g hlt hgone

/-- What has the same clients, map and queue keeps every client. -/
theorem Kept.of_same (h : Kept s) (hc : SameClients s t) (hhash : t.hashConnections = s.hashConnections)
    (hqueue : t.clientQueue = s.clientQueue) : Kept t := by
  unfold Kept
  rw [hc.clients, hhash, hqueue]
  exact h

/-- Closing an object that has nothing left to write: its client has been paid. -/
theorem Paid.close (h : Paid s) (hi : Isolated s) (hw : Wired s) {p : ℕ} (hpos : 0 < (s.conns p).fd)
    (hempty : (s.conns p).writeBuffer = []) : Paid (s.close p) := by
  have hash := hw.hashed p hpos
  have hrecord := sameRecord_close s p
  intro g hlt hgone
  rw [(hrecord g).sent, (hrecord g).replies]
  rw [close_eq hpos hash] at hlt hgone
  -- the client is the one that is let go, to whom the empty write buffer was owed, or was gone before
  by_cases hclient : s.kernel.clients (s.conns p).fd = some g
  · rw [hi.owed _ p g hash hclient, hempty, List.append_nil]
  · refine h g hlt fun fd hg => ?_
    have hne : fd ≠ (s.conns p).fd := by
      rintro rfl
      exact hclient hg
    exact hgone fd (by simpa [kernel, Kernel.close, hne] using hg)

/-- A close keeps the other clients. -/
theorem Kept.close (h : Kept s) (hw : Wired s) {p : ℕ} (hpos : 0 < (s.conns p).fd) :
    Kept (s.close p) := by
  rw [close_eq hpos (hw.hashed p hpos)]
  intro fd hopen
  have hne : fd ≠ (s.conns p).fd := by
    rintro rfl
    simp [kernel, Kernel.close] at hopen
  have hopen' : s.kernel.clients fd ≠ none := by simpa [kernel, Kernel.close, hne] using hopen
  simpa [hne] using h fd hopen'

/-- The write handler closes an object only when nothing is left to write. -/
theorem Paid.writeHandler (h : Paid s) (hk : Kept s) (hi : Isolated s) (hw : Wired s) {p : ℕ}
    (hash : s.hashConnections (s.conns p).fd = some p) (answer : WriteAnswer) :
    Paid (s.writeHandler p answer) ∧ Kept (s.writeHandler p answer) := by
  obtain ⟨hpos, -, -, hopen, hnext⟩ := hw.served _ p hash
  rcases writeHandler_cases p answer with ⟨hempty, -, heq⟩ | hs
  · obtain ⟨g, hclient⟩ := Option.ne_none_iff_exists'.mp hopen
    have hremove : Serves s (s.setReactor (s.reactor.removeWrite (s.conns p).fd)) p :=
      serves_setReactor Reactor.touches_removeWrite
    have hremoved : Isolated (s.setReactor (s.reactor.removeWrite (s.conns p).fd)) :=
      hi.of_eq rfl rfl rfl hremove.reactor.io.clients rfl rfl rfl rfl
    have hw' := hw.serves hremove hnext
    have hp' := h.of_same hremove.sameClients fun _ _ => ⟨rfl, rfl⟩
    rw [heq]
    exact ⟨hp'.close hremoved hw' hpos hempty, (hk.of_same hremove.sameClients rfl rfl).close hw' hpos⟩
  · exact ⟨h.of_same hs.sameClients fun _ hgone => sameRecord_writeHandler answer hgone,
      hk.of_same hs.sameClients hs.hashConnections hs.clientQueue⟩

/-- A client arrives. -/
theorem Paid.arrive (h : Paid s) {fd : ℤ} (hfree : s.kernel.clients fd = none) :
    Paid { s.setKernel { s.kernel with
        clients := Function.update s.kernel.clients fd (some s.nextClient) } with
      clientQueue := s.clientQueue ++ [fd], nextClient := s.nextClient + 1 } := by
  intro g hlt hgone
  -- the client that arrives is not gone
  have hne : g ≠ s.nextClient := by
    rintro rfl
    exact hgone fd (Function.update_self fd _ _)
  have hlt' : g < s.nextClient + 1 := hlt
  refine h g (by omega) fun fd' hg => ?_
  have hfd : fd' ≠ fd := by
    rintro rfl
    rw [hfree] at hg
    cases hg
  exact hgone fd' ((Function.update_of_ne hfd _ _).trans hg)

/-- A client that arrives is kept in the queue. -/
theorem Kept.arrive (h : Kept s) (fd : ℤ) :
    Kept { s.setKernel { s.kernel with
        clients := Function.update s.kernel.clients fd (some s.nextClient) } with
      clientQueue := s.clientQueue ++ [fd], nextClient := s.nextClient + 1 } := by
  intro fd' hopen
  by_cases hfd : fd' = fd
  · exact .inr (List.mem_append_right _ (hfd ▸ List.mem_singleton_self fd))
  · have hopen' : s.kernel.clients fd' ≠ none := by
      simpa [kernel, setKernel, hfd] using hopen
    rcases h fd' hopen' with hash | hq
    · exact .inl hash
    · exact .inr (List.mem_append_left _ hq)

/-- Working off the queue leaves the clients and their records alone. -/
theorem same_wakeup (hw : Wired s) :
    SameClients s (s.clientQueue.foldl accept { s with clientQueue := [] }) ∧
      ∀ g, SameRecord s (s.clientQueue.foldl accept { s with clientQueue := [] }) g := by
  obtain ⟨-, hc, hr⟩ := hw.takeQueue.foldl_accept
    (P := fun u => SameClients s u ∧ ∀ g, SameRecord s u g)
    (fun u fd hu _ hP => ⟨hP.1.accept hu fd, fun g => (hP.2 g).accept hu fd⟩) rfl hw.queue
    hw.queue_nodup ⟨⟨rfl, rfl⟩, fun g => ⟨rfl, rfl⟩⟩
  exact ⟨hc, hr⟩

/-- Working off the queue makes connections of the clients in it, and pays nobody. -/
theorem Paid.wakeup (h : Paid s) (hk : Kept s) (hw : Wired s) :
    Paid (s.clientQueue.foldl accept { s with clientQueue := [] }) ∧
      Kept (s.clientQueue.foldl accept { s with clientQueue := [] }) := by
  obtain ⟨hc, hr⟩ := same_wakeup hw
  refine ⟨h.of_same hc fun g _ => hr g, fun fd hopen => .inl ?_⟩
  rw [hc.clients] at hopen
  rw [hashed_foldl_accept]
  exact (hk fd hopen).symm

/-- **Every clear step** keeps all clients, and pays those it lets go. -/
theorem Paid.step (h : Paid s) (hk : Kept s) (hi : Isolated s) (hw : Wired s) {server : HttpServer}
    {e : ThreadEvent} (hclear : Clear s e) (ht : s.step server e = some t) : Paid t ∧ Kept t := by
  cases hw.stepped ht with
  | @arrive fd hpos hfree => exact ⟨h.arrive hfree, hk.arrive fd⟩
  | active => exact ⟨h, hk⟩
  | wakeup => exact h.wakeup hk hw
  | @read _ _ p rest _ _ hash _ ht =>
      have hs := serves_readHandler ht
      have hp : Paid (s.setActive rest) := h
      have hk' : Kept (s.setActive rest) := hk
      exact ⟨hp.of_same hs.sameClients fun g hgone =>
          (hi.setActive rest).sameRecord_readHandler (hw.setActive rest) hash hgone ht,
        hk'.of_same hs.sameClients hs.hashConnections hs.clientQueue⟩
  | @write answer p rest _ hash =>
      exact Paid.writeHandler (s := s.setActive rest) h hk (hi.setActive rest) (hw.setActive rest) hash
        answer
  | @timer i d hd =>
      have hs := serves_runTimer (s := { s with timers := s.timers.eraseIdx i }) d
      have hp : Paid { s with timers := s.timers.eraseIdx i } := h
      have hk' : Kept { s with timers := s.timers.eraseIdx i } := hk
      exact ⟨hp.of_same hs.sameClients fun g hgone => sameRecord_runTimer (hclear d hd) hgone,
        hk'.of_same hs.sameClients hs.hashConnections hs.clientQueue⟩

/-- `t` has no other open descriptors, and the same clients have arrived. -/
structure OpensNothing (s t : HttpThread) : Prop where
  clients : ∀ fd, t.kernel.clients fd ≠ none → s.kernel.clients fd ≠ none
  nextClient : t.nextClient = s.nextClient

/-- Where the clients are the same nothing is opened. -/
theorem SameClients.opensNothing (hc : SameClients s t) : OpensNothing s t :=
  ⟨fun _ hopen => hc.clients ▸ hopen, hc.nextClient⟩

/-- A close opens nothing. -/
theorem OpensNothing.close (hw : Wired s) {p : ℕ} (hpos : 0 < (s.conns p).fd) :
    OpensNothing s (s.close p) := by
  rw [close_eq hpos (hw.hashed p hpos)]
  refine ⟨fun fd hopen => ?_, rfl⟩
  have hne : fd ≠ (s.conns p).fd := by
    rintro rfl
    simp [kernel, Kernel.close] at hopen
  simpa [kernel, Kernel.close, hne] using hopen

/-- The write handler opens nothing. -/
theorem OpensNothing.writeHandler (hw : Wired s) {p : ℕ}
    (hash : s.hashConnections (s.conns p).fd = some p) (answer : WriteAnswer) :
    OpensNothing s (s.writeHandler p answer) := by
  obtain ⟨hpos, -, -, -, hnext⟩ := hw.served _ p hash
  rcases writeHandler_cases p answer with ⟨-, -, heq⟩ | hs
  · have hremove : Serves s (s.setReactor (s.reactor.removeWrite (s.conns p).fd)) p :=
      serves_setReactor Reactor.touches_removeWrite
    have hclose := OpensNothing.close (hw.serves hremove hnext) hpos
    have hsame := hremove.sameClients
    rw [heq]
    exact ⟨fun fd hopen => hsame.clients ▸ hclose.clients fd hopen,
      hclose.nextClient.trans hsame.nextClient⟩
  · exact hs.sameClients.opensNothing

/-- **A step at which nobody arrives** opens no descriptor. -/
theorem OpensNothing.step (hw : Wired s) {server : HttpServer} {e : ThreadEvent}
    (he : ∀ fd, e ≠ .arrive fd) (ht : s.step server e = some t) : OpensNothing s t := by
  cases hw.stepped ht with
  | @arrive fd => exact absurd rfl (he fd)
  | active => exact ⟨fun _ => id, rfl⟩
  | wakeup => exact (same_wakeup hw).1.opensNothing
  | @read _ _ p rest _ _ hash _ ht =>
      have hopens := (serves_readHandler ht).sameClients.opensNothing
      exact ⟨hopens.clients, hopens.nextClient⟩
  | @write answer p rest _ hash =>
      have hopens := OpensNothing.writeHandler (hw.setActive rest) hash answer
      exact ⟨hopens.clients, hopens.nextClient⟩
  | @timer i d hd =>
      have hopens :=
        (serves_runTimer (s := { s with timers := s.timers.eraseIdx i }) d).sameClients.opensNothing
      exact ⟨hopens.clients, hopens.nextClient⟩

/-! ## Runs -/

/-- A client waits in the queue and has not been answered. -/
def Waits (s : HttpThread) (g : ℕ) : Prop :=
  ∃ fd ∈ s.clientQueue, s.kernel.clients fd = some g ∧ s.replies g = [] ∧ s.sent g = []

/-- A client is served by an object, whose write buffer is what it is still owed. -/
def ServedInFull (s : HttpThread) (g : ℕ) : Prop :=
  ∃ fd p, s.hashConnections fd = some p ∧ s.kernel.clients fd = some g ∧
    s.replies g = s.sent g ++ (s.conns p).writeBuffer

/-- A client is gone and got all the replies. -/
def GonePaid (s : HttpThread) (g : ℕ) : Prop :=
  (∀ fd, s.kernel.clients fd ≠ some g) ∧ s.sent g = s.replies g

/-- **The clients of a worker**: in every run whose timers find the clients they were set for, each
client that has arrived waits in the queue, is served and owed what its object has in the write
buffer, or is gone after its socket has taken every byte of its replies. -/
theorem served_of_reachable {server : HttpServer} (h : ((system server).guard Clear).Reachable s) {g : ℕ}
    (hg : g < s.nextClient) : s.Waits g ∨ s.ServedInFull g ∨ s.GonePaid g := by
  have hinv : (Wired s ∧ Isolated s) ∧ Paid s ∧ Kept s := by
    refine h.invariant (P := fun s => (Wired s ∧ Isolated s) ∧ Paid s ∧ Kept s) ?_ ?_
    · rintro _ rfl
      exact ⟨⟨wired_start, isolated_start⟩, nofun, fun _ hopen => absurd rfl hopen⟩
    · rintro s e t ⟨⟨hw, hi⟩, hp, hk⟩ ⟨hc, ht⟩
      exact ⟨⟨hw.step ht, hi.step hw hc ht⟩, hp.step hk hi hw hc ht⟩
  obtain ⟨⟨-, hi⟩, hp, hk⟩ := hinv
  -- by where its descriptor is: closed, in the queue, or with an object
  by_cases hgone : ∀ fd, s.kernel.clients fd ≠ some g
  · exact .inr (.inr ⟨hgone, hp g hg hgone⟩)
  · obtain ⟨fd, hopen⟩ := not_forall_not.mp hgone
    cases hash : s.hashConnections fd with
    | none =>
        obtain ⟨hsent, hreplies⟩ := hi.waiting fd g hash hopen
        have hq : fd ∈ s.clientQueue :=
          (hk fd (by rw [hopen]; exact Option.some_ne_none g)).resolve_left (not_not.mpr hash)
        exact .inl ⟨fd, hq, hopen, hreplies, hsent⟩
    | some p => exact .inr (.inl ⟨fd, p, hash, hopen, hi.owed fd p g hash hopen⟩)

end HttpThread

end Libio
