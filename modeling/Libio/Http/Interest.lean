import Libio.Http.Wiring

/-! # The interest of the connections of a worker

Which events a worker waits for is recorded by its `epoll` object and, apart from that, by the
kernel. Two properties are asked for: a descriptor that no object serves is recorded with no
interest, so that the next client at the descriptor is really registered (`Unstale`), and each
served descriptor is registered for something, for writing when its object is closing (`Attends`).
Both follow from a relation between the status of an object and its interest which all steps keep,
under a condition on the bytes that are read and on the answers of the kernel (`Quietly`,
`Tended`). -/

namespace Libio

namespace HttpThread

variable {s t : HttpThread} {server : HttpServer} {R : ConnectionStatus → Mask → Prop}

/-- The interest recorded for a descriptor. -/
def interest (s : HttpThread) (fd : ℤ) : Mask := s.reactor.io.old fd

/-! ## A relation between status and interest -/

/-- Every object that serves a descriptor has a status and an interest in the relation `R`, no other
descriptor has an interest recorded, and the records are in step with the kernel. -/
structure Upheld (R : ConnectionStatus → Mask → Prop) (s : HttpThread) : Prop where
  synced : ∀ fd, s.reactor.io.Synced fd
  unserved : ∀ fd, s.hashConnections fd = none → s.interest fd = .zero
  served : ∀ fd p, s.hashConnections fd = some p → R (s.conns p).status (s.interest fd)
  nonzero : ∀ p, (s.conns p).fd ≠ 0

/-- A relation that accepting, sending and writing keep, and that lets no closing object read. -/
structure Stable (R : ConnectionStatus → Mask → Prop) : Prop where
  accepted : R .connected .RD
  quiet : ∀ m, R .closing m → m.rd = false
  sends : ∀ status m m', R status m → m'.rd = m.rd → (m.wr = true → m'.wr = true) → R status m'
  written : ∀ m, R .connected m → R .connected (m.without .WR)

/-- A worker without clients upholds any rule. -/
theorem upheld_start : Upheld R start where
  synced _ := rfl
  unserved _ _ := rfl
  served := nofun
  nonzero _ := (by decide : (-1 : ℤ) ≠ 0)

/-- A descriptor that is served is live. -/
theorem Upheld.live (h : Upheld R s) (hw : Wired s) {p : ℕ}
    (hash : s.hashConnections (s.conns p).fd = some p) : s.reactor.Live (s.conns p).fd where
  pos := (hw.served _ p hash).1
  client := (hw.served _ p hash).2.2.2.1
  synced := h.synced _
  channel := by
    obtain ⟨c, hc, -⟩ := hw.channel _ p hash
    rw [hc]
    exact Option.some_ne_none c

/-- Work on a served object that leaves it in the relation. -/
theorem Upheld.serves (h : Upheld R s) (hw : Wired s) {p : ℕ}
    (hash : s.hashConnections (s.conns p).fd = some p) (hs : Serves s t p)
    (hsynced : t.reactor.io.Synced (s.conns p).fd)
    (hR : R (t.conns p).status (t.interest (s.conns p).fd)) : Upheld R t where
  synced fd := by
    by_cases he : fd = (s.conns p).fd
    · rw [he]
      exact hsynced
    · exact hs.reactor.io.synced he (h.synced fd)
  unserved fd hfd := by
    rw [hs.hashConnections] at hfd
    have he : fd ≠ (s.conns p).fd := by
      rintro rfl
      rw [hash] at hfd
      cases hfd
    exact (hs.reactor.io.old he).trans (h.unserved fd hfd)
  served fd q hq := by
    rw [hs.hashConnections] at hq
    have hqfd := (hw.served fd q hq).2.1
    by_cases he : fd = (s.conns p).fd
    · subst he
      obtain rfl := Option.some.inj (hash.symm.trans hq)
      exact hR
    · have hqp : q ≠ p := by
        rintro rfl
        exact he hqfd.symm
      rw [hs.conns q hqp, interest, hs.reactor.io.old he]
      exact h.served fd q hq
  nonzero q := by
    by_cases hqp : q = p
    · rw [hqp, hs.fd]
      exact h.nonzero p
    · rw [hs.conns q hqp]
      exact h.nonzero q

/-- A step that leaves the interest, and descriptor and status of each object, alone. -/
theorem Upheld.of_eq (h : Upheld R s) (hio : t.reactor.io = s.reactor.io)
    (hhash : t.hashConnections = s.hashConnections) (hfd : ∀ p, (t.conns p).fd = (s.conns p).fd)
    (hstatus : ∀ p, (t.conns p).status = (s.conns p).status) : Upheld R t where
  synced fd := hio ▸ h.synced fd
  unserved fd hf := by
    rw [hhash] at hf
    rw [interest, hio]
    exact h.unserved fd hf
  served fd p hp := by
    rw [hhash] at hp
    rw [interest, hio, hstatus]
    exact h.served fd p hp
  nonzero p := by
    rw [hfd]
    exact h.nonzero p

/-- Events that are to be dispatched make no difference. -/
theorem Upheld.setActive (h : Upheld R s) (active : List (ℤ × Dir)) :
    Upheld R (s.setActive active) :=
  h.of_eq rfl rfl (fun _ => rfl) fun _ => rfl

/-! ## Callbacks -/

/-- What the read handler must leave in the relation, for each answer of `read`. -/
def ReadKeeps (R : ConnectionStatus → Mask → Prop) (s : HttpThread) (server : HttpServer) (env : Env)
    (p : ℕ) : ReadAnswer → Prop
  | .again => True
  | .error => R (s.conns p).status ((s.interest (s.conns p).fd).without .RD)
  | .eof => R .closing ((s.interest (s.conns p).fd).without .RD)
  | .data bytes => ∀ t,
      (s.session { s.conns p with readBuffer := (s.conns p).readBuffer ++ bytes }).parseRequest
        server env = .ok t → t.Live ∧ R t.conn.status t.interest

/-- What the write handler must leave in the relation, for each answer of `write`. -/
def WriteKeeps (R : ConnectionStatus → Mask → Prop) (s : HttpThread) (p : ℕ) : WriteAnswer → Prop
  | .wrote _ | .again => True
  | .error | .zero => (s.conns p).writeBuffer ≠ [] →
      R .closing ((s.interest (s.conns p).fd).without .WR)

/-- A change of the interest and the status of an object. -/
theorem Upheld.setInterest (h : Upheld R s) (hw : Wired s) {p : ℕ} {re : Reactor ℕ}
    {c : HttpConnection} (hash : s.hashConnections (s.conns p).fd = some p)
    (hs : Serves s ((s.setReactor re).setConn p c) p) (hlive : re.Live (s.conns p).fd)
    (hR : R c.status (re.io.old (s.conns p).fd)) :
    Upheld R ((s.setReactor re).setConn p c) := by
  refine h.serves hw hash hs hlive.synced ?_
  have hconn : ((s.setReactor re).setConn p c).conns p = c := Function.update_self p _ _
  rw [hconn]
  exact hR

/-- **The read handler.** -/
theorem Upheld.readHandler (h : Upheld R s) (hw : Wired s) {env : Env} {p : ℕ}
    {answer : ReadAnswer} (hash : s.hashConnections (s.conns p).fd = some p)
    (hkeeps : ReadKeeps R s server env p answer)
    (ht : s.readHandler server env p answer = some t) : Upheld R t := by
  have hs := serves_readHandler ht
  have hlive := h.live hw hash
  obtain ⟨hlive', hold⟩ := hlive.removeRead
  cases answer with
  | again =>
      obtain rfl := Option.some.inj ht
      exact h
  | error =>
      obtain rfl := Option.some.inj ht
      rw [← setConn_self (s.setReactor _) p] at hs ⊢
      exact h.setInterest hw hash hs hlive' (hold ▸ hkeeps)
  | eof =>
      obtain rfl := Option.some.inj ht
      exact h.setInterest hw hash hs hlive' (hold ▸ hkeeps)
  | data bytes =>
      unfold HttpThread.readHandler at ht
      simp only at ht
      split at ht
      · cases ht
      · next u hu =>
          obtain rfl := Option.some.inj ht
          obtain ⟨hulive, hR⟩ := hkeeps u hu
          have hfd := (Session.works_parseRequest hu).fd
          unfold Session.Live at hulive
          unfold Session.interest at hR
          rw [hfd] at hulive hR
          refine h.serves hw hash hs ?_ ?_
          · simp only [absorb_reactor]
            exact hulive.synced
          · simp only [HttpThread.interest, absorb_reactor, absorb_conns_self]
            exact hR

/-- **A timer** sends, when its object is open, and changes no interest when it is not. -/
theorem Upheld.runTimer (h : Upheld R s) (hR : Stable R) (hw : Wired s) (d : Deferred) :
    Upheld R (s.runTimer d) := by
  have hs := serves_runTimer (s := s) d
  have happ := (Session.appends_foldl_send (s.session (s.conns d.conn)) d.ops).conn
  have hreactor : (s.runTimer d).reactor =
      (d.ops.foldl Session.send (s.session (s.conns d.conn))).reactor := absorb_reactor _ _ _ _
  have hconn : (s.runTimer d).conns d.conn =
      (d.ops.foldl Session.send (s.session (s.conns d.conn))).conn := absorb_conns_self _ _ _ _
  have hstatus : ((s.runTimer d).conns d.conn).status = (s.conns d.conn).status := by
    rw [hconn, happ]
    rfl
  rcases lt_trichotomy (s.conns d.conn).fd 0 with hneg | hzero | hpos
  · have hsame := Session.foldl_send_reactor_of_neg (s := s.session (s.conns d.conn)) hneg d.ops
    refine h.of_eq ?_ hs.hashConnections ?_ ?_
    · rw [hreactor, hsame]
      rfl
    all_goals
      intro q
      by_cases hq : q = d.conn
      · subst hq
        first | exact hs.fd | exact hstatus
      · rw [hs.conns q hq]
  · exact absurd hzero (h.nonzero _)
  · have hash := hw.hashed _ hpos
    have hsends := Session.sends_foldl_send (s := s.session (s.conns d.conn))
      (h.live hw hash) d.ops
    have hlive := hsends.live
    have hrd := hsends.rd
    have hwr := hsends.wr
    unfold Session.Live at hlive
    unfold Session.interest at hrd hwr
    rw [(Session.works_foldl_send (s.session (s.conns d.conn)) d.ops).fd, ← hreactor] at hlive hrd hwr
    refine h.serves hw hash hs hlive.synced ?_
    rw [hstatus]
    exact hR.sends _ _ _ (h.served _ _ hash) hrd hwr

/-- Closing an object after its last interest has been removed. -/
theorem Upheld.close (h : Upheld R s) (hw : Wired s) {p : ℕ} {re : Reactor ℕ}
    (hpos : 0 < (s.conns p).fd) (hre : Reactor.Touches (s.conns p).fd s.reactor re)
    (hzero : re.io.old (s.conns p).fd = .zero) : Upheld R ((s.setReactor re).close p) := by
  have hash := hw.hashed p hpos
  rw [close_eq (s := s.setReactor re) hpos hash]
  constructor
  case synced =>
    intro fd
    by_cases he : fd = (s.conns p).fd
    · subst he
      have hold : Epoll.old ⟨re.io.events, re.io.kernel.close (s.conns p).fd⟩ (s.conns p).fd =
          .zero := hzero
      exact (Function.update_self _ _ _).trans (if_pos hold).symm
    · have hsync := hre.io.synced he (h.synced fd)
      exact (Function.update_of_ne he _ _).trans hsync
  case unserved =>
    intro fd hfd
    by_cases he : fd = (s.conns p).fd
    · rw [he]
      exact hzero
    · simp only [setReactor, Function.update_of_ne he] at hfd
      exact (hre.io.old he).trans (h.unserved fd hfd)
  case served =>
    intro fd q hq
    have hne : fd ≠ (s.conns p).fd := by
      rintro rfl
      simp [setReactor] at hq
    simp only [setReactor, Function.update_of_ne hne] at hq
    have hqp : q ≠ p := by
      rintro rfl
      exact hne (hw.served fd _ hq).2.1.symm
    have hserved := h.served fd q hq
    rw [interest, ← hre.io.old hne] at hserved
    simp only [setReactor, Function.update_of_ne hqp]
    exact hserved
  case nonzero =>
    intro q
    by_cases hqp : q = p
    · simp [hqp, closedConn]
    · simp only [setReactor, Function.update_of_ne hqp]
      exact h.nonzero q

/-- **The write handler.** An object whose status is not closing is left with its interest in
reading; one that is closing is closed when it waits for nothing but that. -/
theorem Upheld.writeHandler (h : Upheld R s) (hR : Stable R) (hw : Wired s) {p : ℕ}
    {answer : WriteAnswer} (hash : s.hashConnections (s.conns p).fd = some p)
    (hkeeps : WriteKeeps R s p answer) : Upheld R (s.writeHandler p answer) := by
  obtain ⟨hpos, -, hstatus, -, hnext⟩ := hw.served _ p hash
  obtain ⟨hlive, hold⟩ := (h.live hw hash).removeWrite
  have hserved := h.served _ p hash
  have hremove : ∀ c : HttpConnection, c.fd = (s.conns p).fd →
      (c.status = (s.conns p).status ∨ c.status = .closing) →
      Serves s ((s.setReactor (s.reactor.removeWrite (s.conns p).fd)).setConn p c) p :=
    fun c => serves_interest Reactor.touches_removeWrite
  unfold HttpThread.writeHandler
  simp only
  by_cases hempty : (s.conns p).writeBuffer = []
  · rw [if_pos hempty]
    split
    · next hclosing =>
        -- a closing object does not read, so that nothing is left
        have hrd := hR.quiet _ (hclosing ▸ hserved)
        unfold HttpThread.interest at hrd
        refine h.close hw hpos Reactor.touches_removeWrite ?_
        rw [hold]
        simp [Mask.without, Mask.WR, Mask.zero, hrd]
    · next hclosing =>
        have hconnected : (s.conns p).status = .connected := by
          cases hst : (s.conns p).status with
          | connected => rfl
          | closing => exact absurd hst hclosing
          | closed => exact absurd hst hstatus
        rw [← setConn_self (s.setReactor _) p]
        refine h.setInterest hw hash (hremove _ rfl (.inl rfl)) hlive ?_
        rw [hold]
        exact hconnected.symm ▸ hR.written _ (hconnected ▸ hserved)
  · rw [if_neg hempty]
    cases answer with
    | again => exact h
    | error => exact h.setInterest hw hash (hremove _ rfl (.inr rfl)) hlive (hold ▸ hkeeps hempty)
    | zero => exact h.setInterest hw hash (hremove _ rfl (.inr rfl)) hlive (hold ▸ hkeeps hempty)
    | wrote n =>
        refine h.of_eq ?_ ?_ ?_ ?_
        all_goals
          unfold deliver
          cases s.kernel.clients (s.conns p).fd <;> try rfl
        all_goals
          intro q
          by_cases hq : q = p
          · subst hq
            simp [setConn]
          · simp [setConn, hq]

/-! ## Accepting -/

/-- **A descriptor that is set up** is registered for reading, whatever was recorded of it. -/
theorem openIo_interest {io : Epoll} {fd : ℤ} (hpos : 0 < fd) (hclient : io.kernel.clients fd ≠ none)
    (hs : io.Synced fd) : (openIo io fd).Synced fd ∧ (openIo io fd).old fd = .RD := by
  have hfd : 0 ≤ fd := Int.le_of_lt hpos
  have hrd : Mask.RD ≠ .zero := by decide
  have hwr : Mask.WR ≠ .zero := by decide
  obtain ⟨hs₁, ho₁⟩ := hs.add hfd hrd
  obtain ⟨hs₂, ho₂⟩ := hs₁.remove hfd hrd
  obtain ⟨hs₃, ho₃⟩ := hs₂.add hfd hwr
  obtain ⟨hs₄, ho₄⟩ := hs₃.remove hfd hwr
  obtain ⟨hs₅, ho₅⟩ := hs₄.add hfd hrd
  refine ⟨hs₅, ?_⟩
  have hclient₂ : (((io.add fd .RD).2).remove fd .RD).2.kernel.clients fd ≠ none := by
    rw [Epoll.touches_remove.clients, Epoll.touches_add.clients]
    exact hclient
  have hclient₄ : (((((io.add fd .RD).2).remove fd .RD).2.add fd .WR).2.remove fd .WR).2.kernel.clients
      fd ≠ none := by
    rw [Epoll.touches_remove.clients, Epoll.touches_add.clients]
    exact hclient₂
  rw [openIo, ho₅ hclient₄, ho₄, ho₃ hclient₂, ho₂, ho₁ hclient]
  cases io.old fd
  simp [Mask.or, Mask.without, Mask.RD, Mask.WR]

/-- Accepting a client. -/
theorem Upheld.accept (h : Upheld R s) (hR : Stable R) (hw : Wired s) {fd : ℤ}
    (ha : s.Acceptable fd) : Upheld R (s.accept fd) := by
  obtain ⟨hpos, hnone, hclient⟩ := ha
  obtain ⟨hidle, -, -⟩ := hw.nextConn
  obtain ⟨hsynced, hold⟩ := openIo_interest hpos hclient (h.synced fd)
  have htouches := touches_openIo s.reactor.io fd
  rw [hw.accept_eq fd, openReactor_eq]
  generalize s.nextConn = p at hidle ⊢
  constructor
  case synced =>
    intro fd'
    by_cases he : fd' = fd
    · rw [he]
      exact hsynced
    · exact htouches.synced he (h.synced fd')
  case unserved =>
    intro fd' hfd'
    have he : fd' ≠ fd := by
      rintro rfl
      simp at hfd'
    simp only [Function.update_of_ne he] at hfd'
    exact (htouches.old he).trans (h.unserved fd' hfd')
  case served =>
    intro fd' q hq
    by_cases he : fd' = fd
    · subst he
      simp only [Function.update_self] at hq
      obtain rfl := Option.some.inj hq
      rw [interest, hold]
      simpa using hR.accepted
    · simp only [Function.update_of_ne he] at hq
      have hqp : q ≠ p := by
        rintro rfl
        have := hw.served fd' _ hq
        omega
      have hserved := h.served fd' q hq
      rw [interest, ← htouches.old he] at hserved
      simp only [Function.update_of_ne hqp]
      exact hserved
  case nonzero =>
    intro q
    by_cases hqp : q = p
    · subst hqp
      simpa using (Int.ne_of_lt hpos).symm
    · simp only [Function.update_of_ne hqp]
      exact h.nonzero q

/-! ## Steps -/

/-- The object whose callback for a direction is next. -/
def due (s : HttpThread) (dir : Dir) : Option ℕ := (s.nextCallback dir).bind Prod.fst

/-- A callback that is due is the next one. -/
theorem due_eq {dir : Dir} {p : ℕ} (h : s.due dir = some p) :
    ∃ rest, s.nextCallback dir = some (some p, rest) := by
  obtain ⟨⟨q, rest⟩, hnext, hq⟩ := Option.bind_eq_some_iff.mp h
  obtain rfl : q = some p := hq
  exact ⟨rest, hnext⟩

/-- What a step must leave in the relation at the object whose callback is next. -/
def StepKeeps (R : ConnectionStatus → Mask → Prop) (s : HttpThread) (server : HttpServer) :
    ThreadEvent → Prop
  | .read env answer => ∀ p rest, s.nextCallback .read = some (some p, rest) →
      s.hashConnections (s.conns p).fd = some p → answer.Possible →
        ReadKeeps R (s.setActive rest) server env p answer
  | .write answer => ∀ p rest, s.nextCallback .write = some (some p, rest) →
      s.hashConnections (s.conns p).fd = some p → WriteKeeps R s p answer
  | _ => True

/-- **Every step** that leaves the object it works on in the relation keeps the invariant. -/
theorem Upheld.step (h : Upheld R s) (hR : Stable R) (hw : Wired s) {e : ThreadEvent}
    (hkeeps : StepKeeps R s server e) (ht : s.step server e = some t) : Upheld R t := by
  cases hw.stepped ht with
  | arrive hpos hfree => exact ⟨h.synced, h.unserved, h.served, h.nonzero⟩
  | active _ active => exact h.setActive active
  | wakeup =>
      have htake : Upheld R { s with clientQueue := [] } :=
        h.of_eq rfl rfl (fun _ => rfl) fun _ => rfl
      exact (hw.takeQueue.foldl_accept (P := Upheld R)
        (fun _ _ hw' ha h' => h'.accept hR hw' ha) rfl hw.queue hw.queue_nodup htake).2
  | @read _ _ p rest _ hnext hash hposs ht =>
      exact (h.setActive rest).readHandler (hw.setActive rest) hash
        (hkeeps p rest hnext hash hposs) ht
  | @write _ p rest hnext hash =>
      exact (h.setActive rest).writeHandler hR (hw.setActive rest) hash (hkeeps p rest hnext hash)
  | @timer i d hd =>
      have hdrop : Upheld R { s with timers := s.timers.eraseIdx i } :=
        h.of_eq rfl rfl (fun _ => rfl) fun _ => rfl
      exact hdrop.runTimer hR (hw.dropTimer i) d

/-- **Every run** whose steps do. -/
theorem upheld_of_guard {C : HttpThread → ThreadEvent → Prop} (hR : Stable R)
    (hC : ∀ s e, Wired s → Upheld R s → C s e → StepKeeps R s server e)
    (h : ((system server).guard C).Reachable s) : Wired s ∧ Upheld R s := by
  refine h.invariant (P := fun s => Wired s ∧ Upheld R s) ?_ ?_
  · rintro _ rfl
    exact ⟨wired_start, upheld_start⟩
  · rintro s e t ⟨hw, hu⟩ ⟨hc, ht⟩
    exact ⟨hw.step ht, hu.step hR hw (hC s e hw hu hc) ht⟩

/-! ## No stale record -/

/-- A descriptor that no object serves is recorded with no interest. -/
def Unstale (s : HttpThread) : Prop := ∀ fd, s.hashConnections fd = none → s.interest fd = .zero

/-- Whether `parse_request`, when `bytes` have been read, comes to an incomplete message after it
has been asked to close the connection. -/
def partialAfterClose (c : HttpConnection) (bytes : Str) : Bool :=
  Session.partialAfterClose ((c.readBuffer ++ bytes).length + c.requests.length)
    (c.status = .closing) c.requests (c.readBuffer ++ bytes)

/-- A step that leaves no closing object reading: no incomplete message comes after a request to
close, and no write fails while the object reads. -/
def Quietly (s : HttpThread) : ThreadEvent → Prop
  | .read _ (.data bytes) => ∀ p ∈ s.due .read, partialAfterClose (s.conns p) bytes = false
  | .write .error | .write .zero => ∀ p ∈ s.due .write,
      (s.conns p).writeBuffer = [] ∨ (s.interest (s.conns p).fd).rd = false
  | _ => True

instance (s : HttpThread) (e : ThreadEvent) : Decidable (Quietly s e) :=
  match e with
  | .read _ (.data _) => inferInstanceAs (Decidable (∀ p ∈ s.due .read, _ = _))
  | .write .error | .write .zero => inferInstanceAs (Decidable (∀ p ∈ s.due .write, _ ∨ _))
  | .read _ .eof | .read _ .again | .read _ .error | .write (.wrote _) | .write .again
  | .arrive _ | .listen _ | .wakeup | .timer _ => .isTrue trivial

/-- An object that is closing does not read. -/
def Quiet (status : ConnectionStatus) (m : Mask) : Prop := status = .closing → m.rd = false

/-- The rule that a closing object does not read is stable. -/
theorem stable_quiet : Stable Quiet where
  accepted := nofun
  quiet _ h := h rfl
  sends _ _ _ h hrd _ := fun hs => hrd.trans (h hs)
  written _ _ := nofun

/-- What the parser leaves after data has been read. -/
theorem Upheld.parseRequest_quiet (h : Upheld Quiet s) (hw : Wired s) {env : Env} {p : ℕ}
    {bytes : Str} {u : Session} (hash : s.hashConnections (s.conns p).fd = some p)
    (hbytes : bytes ≠ []) (hp : partialAfterClose (s.conns p) bytes = false)
    (hu : (s.session { s.conns p with
      readBuffer := (s.conns p).readBuffer ++ bytes }).parseRequest server env = .ok u) :
    u.Live ∧ Quiet u.conn.status u.interest := by
  have hlive := h.live hw hash
  have hserved := h.served _ p hash
  rw [Session.parseRequest, if_neg (by simp [session, hbytes])] at hu
  refine Session.parseLoop_quiet hu ?_ ?_ ?_
  · exact hlive
  · exact hserved
  · exact hp

/-- **Step lemma** for the rule that a closing object does not read. -/
theorem quietly_keeps {e : ThreadEvent} (hw : Wired s) (h : Upheld Quiet s) (hq : Quietly s e) :
    StepKeeps Quiet s server e := by
  cases e with
  | arrive | listen | wakeup | timer => trivial
  | read env answer =>
      intro p rest hnext hash hposs
      have hp : p ∈ s.due .read := by simp [due, hnext]
      cases answer with
      | again => trivial
      | error => exact fun _ => by simp [Mask.without, Mask.RD]
      | eof => exact fun _ => by simp [Mask.without, Mask.RD]
      | data bytes =>
          exact fun u hu => (h.setActive rest).parseRequest_quiet (hw.setActive rest) hash hposs.1
            (hq p hp) hu
  | write answer =>
      intro p rest hnext hash
      have hp : p ∈ s.due .write := by simp [due, hnext]
      cases answer with
      | wrote | again => trivial
      | error | zero =>
          intro hpending _
          have hrd := (hq p hp).resolve_left hpending
          simpa [Mask.without, Mask.WR] using hrd

/-- **The record of a closed descriptor is empty**, in every run whose steps leave no closing object
reading, and a client that is accepted is registered with the kernel. -/
theorem unstale_of_quietly (h : ((system server).guard Quietly).Reachable s) :
    s.Unstale ∧ ∀ fd, s.Acceptable fd → (s.accept fd).kernel.registered fd = some .RD := by
  obtain ⟨hw, hu⟩ := upheld_of_guard stable_quiet (fun _ _ => quietly_keeps) h
  refine ⟨hu.unserved, fun fd ⟨hpos, _, hclient⟩ => ?_⟩
  obtain ⟨hsynced, hold⟩ := openIo_interest hpos hclient (hu.synced fd)
  rw [hw.accept_eq fd, openReactor_eq]
  exact hsynced.trans (by rw [hold]; rfl)

/-! ## No orphan -/

/-- Each descriptor that is served is registered for something, and for writing when its object is
closing. -/
def Attends (s : HttpThread) : Prop := ∀ fd p, s.hashConnections fd = some p →
  ∃ m, s.kernel.registered fd = some m ∧ m ≠ .zero ∧
    ((s.conns p).status = .closing → m.wr = true)

/-- An event whose handlers append at least one byte before they return. -/
def Replying : ThreadEvent → Prop
  | .read env _ => env.Replies
  | _ => True

/-- A step that takes no object its last interest: no incomplete message comes after a request to
close, a read fails only when the object is closing, the stream ends only while the object waits to
write, and no write fails. -/
def Tended (s : HttpThread) : ThreadEvent → Prop
  | .read _ (.data bytes) => ∀ p ∈ s.due .read, partialAfterClose (s.conns p) bytes = false
  | .read _ .error => ∀ p ∈ s.due .read, (s.conns p).status = .closing
  | .read _ .eof => ∀ p ∈ s.due .read, (s.interest (s.conns p).fd).wr = true
  | .write .error | .write .zero => ∀ p ∈ s.due .write, (s.conns p).writeBuffer = []
  | _ => True

instance (s : HttpThread) (e : ThreadEvent) : Decidable (Tended s e) :=
  match e with
  | .read _ (.data _) | .read _ .error | .read _ .eof =>
      inferInstanceAs (Decidable (∀ p ∈ s.due .read, _ = _))
  | .write .error | .write .zero => inferInstanceAs (Decidable (∀ p ∈ s.due .write, _ = _))
  | .read _ .again | .write (.wrote _) | .write .again
  | .arrive _ | .listen _ | .wakeup | .timer _ => .isTrue trivial

/-- An object that is closing waits to write, and for nothing else; one that is not reads. -/
def Attended (status : ConnectionStatus) (m : Mask) : Prop :=
  (status = .closing → m.rd = false ∧ m.wr = true) ∧ (status = .connected → m.rd = true)

/-- So is the rule on what an object waits for. -/
theorem stable_attended : Stable Attended where
  accepted := ⟨nofun, fun _ => rfl⟩
  quiet _ h := (h.1 rfl).1
  sends _ _ _ h hrd hwr := ⟨fun hs => ⟨hrd.trans (h.1 hs).1, hwr (h.1 hs).2⟩,
    fun hs => hrd.trans (h.2 hs)⟩
  written m h := ⟨nofun, fun _ => by simp [Mask.without, Mask.WR, h.2]⟩

/-- This rule contains the other one. -/
theorem Upheld.quiet (h : Upheld Attended s) : Upheld Quiet s :=
  ⟨h.synced, h.unserved, fun fd p hp hc => ((h.served fd p hp).1 hc).1, h.nonzero⟩

/-- **Step lemma** for the rule on what an object waits for. -/
theorem tended_keeps {e : ThreadEvent} (hw : Wired s) (h : Upheld Attended s)
    (ht : Replying e ∧ Tended s e) : StepKeeps Attended s server e := by
  obtain ⟨hreplies, ht⟩ := ht
  cases e with
  | arrive | listen | wakeup | timer => trivial
  | read env answer =>
      intro p rest hnext hash hposs
      have hp : p ∈ s.due .read := by simp [due, hnext]
      have hserved := h.served _ p hash
      cases answer with
      | again => trivial
      | error =>
          -- reading fails for an object that waits to write anyway
          have hclosing : (s.conns p).status = .closing := ht p hp
          refine ⟨fun hc => ⟨by simp [Mask.without, Mask.RD], ?_⟩, fun hc => ?_⟩
          · simp only [Mask.without, Mask.RD, Bool.not_false, Bool.and_true]
            exact (hserved.1 hc).2
          · exact absurd (hclosing.symm.trans hc) (by decide)
      | eof =>
          have hwr : (s.interest (s.conns p).fd).wr = true := ht p hp
          refine ⟨fun _ => ⟨by simp [Mask.without, Mask.RD], ?_⟩, by simp [Mask.without, Mask.RD]⟩
          simp only [Mask.without, Mask.RD, Bool.not_false, Bool.and_true]
          exact hwr
      | data bytes =>
          intro u hu
          obtain ⟨hlive, hquiet⟩ := (h.quiet.setActive rest).parseRequest_quiet (hw.setActive rest)
            hash hposs.1 (ht p hp) hu
          have hactive := (h.setActive rest).live (hw.setActive rest) hash
          rw [Session.parseRequest, if_neg (by simp [session, hposs.1])] at hu
          have hattended := Session.parseLoop_attended hreplies hu hactive
            (fun hc => (hserved.1 hc).2) hserved.2
          exact ⟨hlive, fun hc => ⟨hquiet hc, hattended.1 hc⟩, hattended.2⟩
  | write answer =>
      intro p rest hnext hash
      have hp : p ∈ s.due .write := by simp [due, hnext]
      cases answer with
      | wrote | again => trivial
      | error | zero => exact fun hpending => absurd (ht p hp) hpending

/-- **No orphan**, in every run whose handlers reply before they return and whose steps take no
object its last interest. -/
theorem attends_of_tended
    (h : (((system server).guard Tended).guard fun _ e => Replying e).Reachable s) : s.Attends := by
  rw [Lts.guard_guard] at h
  obtain ⟨hw, hu⟩ := upheld_of_guard stable_attended (fun _ _ => tended_keeps) h
  intro fd p hp
  have hserved := hu.served fd p hp
  have hsynced := hu.synced fd
  have hne : s.interest fd ≠ .zero := by
    intro hzero
    rw [hzero] at hserved
    cases hstatus : (s.conns p).status with
    | connected => exact absurd (hserved.2 hstatus) (by decide)
    | closing => exact absurd (hserved.1 hstatus).2 (by decide)
    | closed => exact (hw.served fd p hp).2.2.1 hstatus
  exact ⟨s.interest fd, hsynced.trans (if_neg hne), hne, fun hc => (hserved.1 hc).2⟩

/-! ## Single clients -/

/-- A server whose general handler replies at once. -/
def promptEnv : Env where
  answer _ _ _ := { now := [.reply newYear httpOk (str "OK") (str "funny")] }
  clock _ := newYear

/-- A client arrives at descriptor 5 and its first bytes are read. -/
def readRun (bytes : Str) : List ThreadEvent :=
  [.arrive 5, .wakeup, .listen [(5, .RD)], .read promptEnv (.data bytes)]

/-- A client arrives at descriptor 5 and closes its side. -/
def eofRun : List ThreadEvent := [.arrive 5, .wakeup, .listen [(5, .RD)], .read promptEnv .eof]

/-- A client sends these bytes, is sent its reply, and is closed. -/
def closeRun (bytes : Str) : List ThreadEvent :=
  readRun bytes ++
    [.listen [(5, .WR)], .write (.wrote 144), .listen [(5, .WR)], .write .again]

/-- A request that asks for the connection to be closed. -/
def closeRequest : Str := str "GET /test HTTP/1.1\r\nConnection: close\r\n\r\n"

/-- A client who asks to be closed and sends one more byte leaves a stale record. -/
theorem not_unstale_partial :
    ¬ ∀ (server : HttpServer) (s : HttpThread), (system server).Reachable s → s.Unstale := by
  intro h
  have hrun : ((closeRun (closeRequest ++ str "G")).foldlM (fun (s : HttpThread) e =>
      s.step ⟨[], true⟩ e) start).map (fun s => (s.hashConnections 5, s.interest 5)) =
        some (none, .RD) := by decide +kernel
  obtain ⟨s, hs, hrecord⟩ := Option.map_eq_some_iff.mp hrun
  obtain ⟨hnone, hinterest⟩ := Prod.mk.inj hrecord
  have hzero := h ⟨[], true⟩ s ⟨start, _, rfl, Lts.Run.of_foldlM (fun _ _ _ h => h) hs⟩ 5 hnone
  rw [hinterest] at hzero
  exact absurd hzero (by decide)

/-- A client who asks to be closed leaves none. -/
theorem unstale_close : ∃ s : HttpThread, s.emptyConnections = [0] ∧ s.Unstale ∧
    ∀ fd, s.Acceptable fd → (s.accept fd).kernel.registered fd = some .RD := by
  have hrun : ((closeRun closeRequest).foldlM (fun (s : HttpThread) e =>
      if Quietly s e then s.step ⟨[], true⟩ e else none) start).map
        (fun s => s.emptyConnections) = some [0] := by decide +kernel
  obtain ⟨s, hs, hpool⟩ := Option.map_eq_some_iff.mp hrun
  refine ⟨s, hpool, @unstale_of_quietly _ ⟨[], true⟩
    ⟨start, _, rfl, Lts.Run.of_foldlM (fun s e t h => ?_) hs⟩⟩
  exact Option.ite_none_right_eq_some.mp h

/-- The handlers of the examples reply. -/
theorem replies_promptEnv : promptEnv.Replies := by
  intro n route req
  simp [promptEnv, eventsOf, SendOp.events, Request.wire, Request.sendTo_snd, crlf]

/-- So they do in the run of the examples. -/
theorem replying_readRun (bytes : Str) : ∀ e ∈ readRun bytes, Replying e := by
  simp [readRun, Replying, replies_promptEnv]

/-- A client who closes its side at once leaves an orphan. -/
theorem not_attends_eof : ¬ ∀ (server : HttpServer) (s : HttpThread),
    ((system server).guard fun _ e => Replying e).Reachable s → s.Attends := by
  intro h
  have hrun : (eofRun.foldlM (fun (s : HttpThread) e => s.step ⟨[], true⟩ e) start).map
      (fun s => (s.hashConnections 5, s.kernel.registered 5)) = some (some 0, none) := by
    decide +kernel
  obtain ⟨s, hs, hrecord⟩ := Option.map_eq_some_iff.mp hrun
  obtain ⟨hserved, hregistered⟩ := Prod.mk.inj hrecord
  have hreplying : ∀ e ∈ eofRun, Replying e := by
    simp [eofRun, Replying, replies_promptEnv]
  obtain ⟨m, hm, -⟩ := h ⟨[], true⟩ s ⟨start, _, rfl,
    (Lts.Run.of_foldlM (fun _ _ _ h => h) hs).guard_labels hreplying⟩ 5 0 hserved
  rw [hregistered] at hm
  cases hm

/-- A client who asks to be closed is waited for until its reply is written. -/
theorem attends_close : ∃ s : HttpThread, s.hashConnections 5 = some 0 ∧
    (s.conns 0).status = .closing ∧ s.Attends := by
  have hrun : ((readRun closeRequest).foldlM (fun (s : HttpThread) e =>
      if Tended s e then s.step ⟨[], true⟩ e else none) start).map
        (fun s => (s.hashConnections 5, (s.conns 0).status)) = some (some 0, .closing) := by
    decide +kernel
  obtain ⟨s, hs, hrecord⟩ := Option.map_eq_some_iff.mp hrun
  obtain ⟨hserved, hstatus⟩ := Prod.mk.inj hrecord
  have hrun : ((system ⟨[], true⟩).guard Tended).Run start (readRun closeRequest) s :=
    Lts.Run.of_foldlM (fun _ _ _ h => Option.ite_none_right_eq_some.mp h) hs
  exact ⟨s, hserved, hstatus, @attends_of_tended _ ⟨[], true⟩
    ⟨start, _, rfl, hrun.guard_labels (replying_readRun _)⟩⟩

end HttpThread

end Libio
