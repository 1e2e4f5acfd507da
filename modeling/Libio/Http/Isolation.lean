import Libio.Http.Wiring

/-! # Isolation between clients

Objects are reused, so bytes meant for one client could reach another. What a client's socket has
taken must be a prefix of what was appended in answer to that client's requests (`Isolates`). The
send functions do not look at whom the object serves by the time they are called, so the property is
kept by those runs only in which every timer finds the client it was set for (`Clear`,
`isolates_of_clear`). -/

namespace Libio

namespace HttpThread

variable {s t : HttpThread}

/-- Every byte a client's socket has taken comes, in order, from a reply to that client. -/
def Isolates (s : HttpThread) : Prop := ∀ g, s.sent g <+: s.replies g

/-- A step in which a timer that has something to say finds its object open and serving the client
whose request set it. -/
def Clear (s : HttpThread) : ThreadEvent → Prop
  | .timer i => ∀ d ∈ s.timers[i]?, written (eventsOf d.ops) = [] ∨
      (0 < (s.conns d.conn).fd ∧ s.kernel.clients (s.conns d.conn).fd = d.client)
  | _ => True

instance (s : HttpThread) (e : ThreadEvent) : Decidable (Clear s e) :=
  match e with
  | .timer i => inferInstanceAs (Decidable (∀ d ∈ s.timers[i]?, _ ∨ _ ∧ _))
  | .arrive _ | .listen _ | .wakeup | .read _ _ | .write _ => .isTrue trivial

/-- An object that keeps nothing of the client it has served. -/
structure Blank (c : HttpConnection) : Prop where
  writeBuffer : c.writeBuffer = []
  readBuffer : c.readBuffer = []
  requests : c.requests = []

/-- The invariant: what a served client is still owed is the write buffer of its object, and the
object holds no bytes or requests of another client. -/
structure Isolated (s : HttpThread) : Prop where
  owed : ∀ fd p g, s.hashConnections fd = some p → s.kernel.clients fd = some g →
    s.replies g = s.sent g ++ (s.conns p).writeBuffer
  source : ∀ fd p g, s.hashConnections fd = some p → s.kernel.clients fd = some g →
    ((s.conns p).readBuffer = [] ∧ (s.conns p).requests = []) ∨ s.source p = some g
  pool : ∀ p ∈ s.emptyConnections, Blank (s.conns p)
  apart : ∀ fd fd' g, s.kernel.clients fd = some g → s.kernel.clients fd' = some g → fd = fd'
  known : ∀ fd g, s.kernel.clients fd = some g → g < s.nextClient
  waiting : ∀ fd g, s.hashConnections fd = none → s.kernel.clients fd = some g →
    s.sent g = [] ∧ s.replies g = []
  coming : ∀ g, s.nextClient ≤ g → s.sent g = [] ∧ s.replies g = []
  isolates : s.Isolates

/-- A worker without clients isolates them. -/
theorem isolated_start : Isolated start where
  owed := nofun
  source := nofun
  pool := nofun
  apart := nofun
  known := nofun
  waiting := nofun
  coming _ _ := ⟨rfl, rfl⟩
  isolates _ := List.prefix_rfl

/-! ## Work on one object -/

/-- `t` is `s` after `bytes` have been appended to the object `p` in answer to the client `g`, which
it serves, and `out` has been taken by that client's socket. -/
structure Answers (s t : HttpThread) (p g : ℕ) (bytes out : Str) : Prop where
  replies : t.replies = Function.update s.replies g (s.replies g ++ bytes)
  sent : t.sent = Function.update s.sent g (s.sent g ++ out)
  buffer : (s.conns p).writeBuffer ++ bytes = out ++ (t.conns p).writeBuffer
  source : ((t.conns p).readBuffer = [] ∧ (t.conns p).requests = []) ∨ t.source p = some g
  sources : ∀ q, q ≠ p → t.source q = s.source q

/-- **Answering the client that is served** keeps the invariant. -/
theorem Isolated.answers (h : Isolated s) (hw : Wired s) {p g : ℕ} {bytes out : Str}
    (hash : s.hashConnections (s.conns p).fd = some p)
    (hclient : s.kernel.clients (s.conns p).fd = some g) (hs : Serves s t p)
    (ha : Answers s t p g bytes out) : Isolated t := by
  have hclients : t.kernel.clients = s.kernel.clients := hs.reactor.io.clients
  -- the other objects serve other clients
  have hother : ∀ fd q g', s.hashConnections fd = some q → s.kernel.clients fd = some g' →
      (q = p ∧ g' = g) ∨ (q ≠ p ∧ g' ≠ g) := by
    intro fd q g' hq hg'
    by_cases hqp : q = p
    · subst hqp
      have hfd := (hw.served fd _ hq).2.1
      rw [hfd, hg'] at hclient
      exact .inl ⟨rfl, Option.some.inj hclient⟩
    · refine .inr ⟨hqp, ?_⟩
      rintro rfl
      obtain rfl := h.apart _ _ _ hg' hclient
      exact hqp (Option.some.inj (hq.symm.trans hash))
  have howed := h.owed _ p g hash hclient
  constructor
  case owed =>
    intro fd q g' hq hg'
    rw [hs.hashConnections] at hq
    rw [hclients] at hg'
    rw [ha.replies, ha.sent]
    rcases hother fd q g' hq hg' with ⟨rfl, rfl⟩ | ⟨hqp, hne⟩
    · rw [Function.update_self, Function.update_self, howed, List.append_assoc, ha.buffer,
        List.append_assoc]
    · rw [Function.update_of_ne hne, Function.update_of_ne hne, hs.conns q hqp]
      exact h.owed fd q g' hq hg'
  case source =>
    intro fd q g' hq hg'
    rw [hs.hashConnections] at hq
    rw [hclients] at hg'
    rcases hother fd q g' hq hg' with ⟨rfl, rfl⟩ | ⟨hqp, -⟩
    · exact ha.source
    · rw [hs.conns q hqp, ha.sources q hqp]
      exact h.source fd q g' hq hg'
  case pool =>
    intro q hq
    rw [hs.emptyConnections] at hq
    have hqp : q ≠ p := by
      rintro rfl
      have hidle := (hw.pool _ hq).2
      have hpos := (hw.served _ _ hash).1
      omega
    rw [hs.conns q hqp]
    exact h.pool q hq
  case apart =>
    rw [hclients]
    exact h.apart
  case known =>
    rw [hclients, hs.nextClient]
    exact h.known
  case waiting =>
    intro fd g' hq hg'
    rw [hs.hashConnections] at hq
    rw [hclients] at hg'
    have hne : g' ≠ g := by
      rintro rfl
      obtain rfl := h.apart _ _ _ hg' hclient
      rw [hq] at hash
      cases hash
    rw [ha.replies, ha.sent, Function.update_of_ne hne, Function.update_of_ne hne]
    exact h.waiting fd g' hq hg'
  case coming =>
    intro g' hg'
    rw [hs.nextClient] at hg'
    have hne : g' ≠ g := by
      rintro rfl
      exact absurd (h.known _ _ hclient) (not_lt.mpr hg')
    rw [ha.replies, ha.sent, Function.update_of_ne hne, Function.update_of_ne hne]
    exact h.coming g' hg'
  case isolates =>
    intro g'
    rw [ha.replies, ha.sent]
    by_cases hne : g' = g
    · subst hne
      rw [Function.update_self, Function.update_self, howed, List.append_assoc, ha.buffer,
        ← List.append_assoc]
      exact List.prefix_append _ _
    · rw [Function.update_of_ne hne, Function.update_of_ne hne]
      exact h.isolates g'

/-- A step that leaves all buffers and the record alone keeps the invariant. -/
theorem Isolated.of_eq (h : Isolated s) (hconns : t.conns = s.conns)
    (hhash : t.hashConnections = s.hashConnections) (hpool : t.emptyConnections = s.emptyConnections)
    (hclients : t.kernel.clients = s.kernel.clients) (hnext : t.nextClient = s.nextClient)
    (hsource : t.source = s.source) (hsent : t.sent = s.sent) (hreplies : t.replies = s.replies) :
    Isolated t := by
  constructor
  case owed => simpa only [hconns, hhash, hclients, hsent, hreplies] using h.owed
  case source => simpa only [hconns, hhash, hclients, hsource] using h.source
  case pool => simpa only [hconns, hpool] using h.pool
  case apart => simpa only [hclients] using h.apart
  case known => simpa only [hclients, hnext] using h.known
  case waiting => simpa only [hhash, hclients, hsent, hreplies] using h.waiting
  case coming => simpa only [hnext, hsent, hreplies] using h.coming
  case isolates => simpa only [Isolates, hsent, hreplies] using h.isolates

/-- Events that are to be dispatched make no difference. -/
theorem Isolated.setActive (h : Isolated s) (active : List (ℤ × Dir)) :
    Isolated (s.setActive active) :=
  h.of_eq rfl rfl rfl rfl rfl rfl rfl rfl

/-! ## Callbacks -/

/-- What the methods of an object have appended, recorded for the client it serves. -/
theorem answers_absorb {p g : ℕ} {c : HttpConnection} {u : Session} (source : ℕ → Option ℕ)
    (hwrite : c.writeBuffer = (s.conns p).writeBuffer) (hu : Session.Works (s.session c) u)
    (hsource : (u.conn.readBuffer = [] ∧ u.conn.requests = []) ∨ source p = some g)
    (hsources : ∀ q, q ≠ p → source q = s.source q) :
    Answers s { s.absorb p (some g) u with source := source } p g (written u.trace) [] := by
  obtain ⟨evs, htrace, hbuffer⟩ := hu.output
  have hevs : u.trace = evs := by simpa [session] using htrace
  have hconn : ({ s.absorb p (some g) u with source := source } : HttpThread).conns p = u.conn := by
    simp [absorb, credit, setReactor, setConn]
  constructor
  case replies => rfl
  case sent => simp [absorb, credit, setReactor, setConn]
  case buffer =>
    rw [hconn, List.nil_append, hbuffer, hevs]
    simp [session, hwrite]
  case source =>
    rw [hconn]
    exact hsource
  case sources => exact hsources

/-- The client for which an object reads is the one it serves. -/
theorem Isolated.readSource (h : Isolated s) {p g : ℕ}
    (hash : s.hashConnections (s.conns p).fd = some p)
    (hclient : s.kernel.clients (s.conns p).fd = some g) : s.readSource p = some g := by
  unfold HttpThread.readSource
  split
  · exact hclient
  · next hne => exact (h.source _ p g hash hclient).resolve_left hne

/-- A change of the interest and the status alone appends nothing. -/
theorem Isolated.interest (h : Isolated s) {p g : ℕ} {re : Reactor ℕ} {c : HttpConnection}
    (hash : s.hashConnections (s.conns p).fd = some p)
    (hclient : s.kernel.clients (s.conns p).fd = some g)
    (hwrite : c.writeBuffer = (s.conns p).writeBuffer)
    (hread : c.readBuffer = (s.conns p).readBuffer) (hreqs : c.requests = (s.conns p).requests) :
    Answers s ((s.setReactor re).setConn p c) p g [] [] := by
  have hconn : ((s.setReactor re).setConn p c).conns p = c := by simp [setConn]
  constructor
  case replies => simp [setReactor, setConn]
  case sent => simp [setReactor, setConn]
  case buffer => simp [hconn, hwrite]
  case source =>
    rw [hconn, hread, hreqs]
    exact h.source _ p g hash hclient
  case sources => exact fun _ _ => rfl

/-- **The read handler** answers the client it has read from. -/
theorem Isolated.readHandler (h : Isolated s) (hw : Wired s) {server : HttpServer} {env : Env}
    {p : ℕ} {answer : ReadAnswer} (hash : s.hashConnections (s.conns p).fd = some p)
    (ht : s.readHandler server env p answer = some t) : Isolated t := by
  obtain ⟨g, hclient⟩ := Option.ne_none_iff_exists'.mp (hw.served _ p hash).2.2.2.1
  have hs := serves_readHandler ht
  cases answer with
  | again =>
      obtain rfl := Option.some.inj ht
      exact h
  | error =>
      obtain rfl := Option.some.inj ht
      have ha : Answers s (s.setReactor (s.reactor.removeRead (s.conns p).fd)) p g [] [] := by
        rw [← setConn_self (s.setReactor _) p]
        exact h.interest hash hclient rfl rfl rfl
      exact h.answers hw hash hclient hs ha
  | eof =>
      obtain rfl := Option.some.inj ht
      exact h.answers hw hash hclient hs (h.interest hash hclient rfl rfl rfl)
  | data bytes =>
      have hsource := h.readSource hash hclient
      unfold HttpThread.readHandler at ht
      simp only [hsource] at ht
      split at ht
      · cases ht
      · next u hu =>
          obtain rfl := Option.some.inj ht
          refine h.answers hw hash hclient hs (answers_absorb _ ?_ (Session.works_parseRequest hu)
            (.inr (Function.update_self p _ _)) fun q hq => Function.update_of_ne hq _ _)
          rfl

/-- A timer that has nothing to say leaves all objects and the record alone. -/
theorem runTimer_silent {d : Deferred} (hd : written (eventsOf d.ops) = []) :
    ∃ re timers, s.runTimer d = { s with reactor := re, timers := timers } := by
  have happ := Session.appends_foldl_send (s.session (s.conns d.conn)) d.ops
  unfold runTimer
  generalize d.ops.foldl Session.send (s.session (s.conns d.conn)) = u at happ ⊢
  have htrace : written u.trace = [] := by simpa [session, happ.trace] using hd
  have hconn : u.conn = s.conns d.conn := by simpa [session, hd] using happ.conn
  have hself := setConn_self s d.conn
  refine ⟨u.reactor, s.timers ++ u.timers.map fun ops => ⟨d.conn, ops, d.client⟩, ?_⟩
  unfold absorb
  simp only [htrace, hconn, hself]
  cases d.client with
  | none => rfl
  | some g => simp [credit, setReactor]

/-- **A timer** that finds the client it was set for answers it. -/
theorem Isolated.runTimer (h : Isolated s) (hw : Wired s) {d : Deferred}
    (hd : written (eventsOf d.ops) = [] ∨
      (0 < (s.conns d.conn).fd ∧ s.kernel.clients (s.conns d.conn).fd = d.client)) :
    Isolated (s.runTimer d) := by
  have hs := serves_runTimer (s := s) d
  rcases hd with hsilent | ⟨hpos, hclient⟩
  · have hclients := hs.reactor.io.clients
    obtain ⟨re, timers, heq⟩ := runTimer_silent (s := s) hsilent
    rw [heq] at hclients ⊢
    exact h.of_eq rfl rfl rfl hclients rfl rfl rfl rfl
  · have hash := hw.hashed d.conn hpos
    obtain ⟨g, hg⟩ := Option.ne_none_iff_exists'.mp (hw.served _ _ hash).2.2.2.1
    have hdg : d.client = some g := hclient.symm.trans hg
    have hworks := Session.works_foldl_send (s.session (s.conns d.conn)) d.ops
    have hsource := h.source _ _ g hash hg
    unfold HttpThread.runTimer at hs ⊢
    rw [hdg] at hs ⊢
    refine h.answers hw hash hg hs (answers_absorb s.source rfl hworks ?_ fun _ _ => rfl)
    rw [(Session.appends_foldl_send (s.session (s.conns d.conn)) d.ops).conn]
    exact hsource

/-- The record of bytes taken. -/
theorem deliver_eq {fd : ℤ} {g : ℕ} (hclient : s.kernel.clients fd = some g) (bytes : Str) :
    s.deliver fd bytes = { s with sent := Function.update s.sent g (s.sent g ++ bytes) } := by
  simp only [deliver, hclient]

/-- Closing an object whose write buffer is empty. -/
theorem Isolated.close (h : Isolated s) (hw : Wired s) {p : ℕ} (hpos : 0 < (s.conns p).fd) :
    Isolated (s.close p) := by
  have hash := hw.hashed p hpos
  rw [close_eq hpos hash]
  -- the other descriptors are served by other objects
  have hother : ∀ fd q, Function.update s.hashConnections (s.conns p).fd none fd = some q →
      q ≠ p ∧ s.hashConnections fd = some q := by
    intro fd q hq
    have hne : fd ≠ (s.conns p).fd := by
      rintro rfl
      rw [Function.update_self] at hq
      cases hq
    rw [Function.update_of_ne hne] at hq
    refine ⟨?_, hq⟩
    rintro rfl
    exact hne (hw.served fd _ hq).2.1.symm
  have hclients : ∀ fd g, (s.kernel.close (s.conns p).fd).clients fd = some g →
      fd ≠ (s.conns p).fd ∧ s.kernel.clients fd = some g := by
    intro fd g hg
    have hne : fd ≠ (s.conns p).fd := by
      rintro rfl
      simp [Kernel.close] at hg
    exact ⟨hne, by simpa [Kernel.close, hne] using hg⟩
  constructor
  case owed =>
    intro fd q g hq hg
    obtain ⟨hqp, hq⟩ := hother fd q hq
    simp only [Function.update_of_ne hqp]
    exact h.owed fd q g hq (hclients fd g hg).2
  case source =>
    intro fd q g hq hg
    obtain ⟨hqp, hq⟩ := hother fd q hq
    simp only [Function.update_of_ne hqp]
    exact h.source fd q g hq (hclients fd g hg).2
  case pool =>
    intro q hq
    by_cases hqp : q = p
    · subst hqp
      simp only [Function.update_self]
      exact ⟨rfl, rfl, rfl⟩
    · simp only [Function.update_of_ne hqp]
      rcases List.mem_append.mp hq with hq | hq
      · exact h.pool q hq
      · exact absurd (List.mem_singleton.mp hq) hqp
  case apart =>
    intro fd fd' g hg hg'
    exact h.apart fd fd' g (hclients fd g hg).2 (hclients fd' g hg').2
  case known => exact fun fd g hg => h.known fd g (hclients fd g hg).2
  case waiting =>
    intro fd g hq hg
    obtain ⟨hne, hg⟩ := hclients fd g hg
    simp only [Function.update_of_ne hne] at hq
    exact h.waiting fd g hq hg
  case coming => exact h.coming
  case isolates => exact h.isolates

/-- **The write handler** hands the client bytes it is owed. -/
theorem Isolated.writeHandler (h : Isolated s) (hw : Wired s) {p : ℕ} {answer : WriteAnswer}
    (hash : s.hashConnections (s.conns p).fd = some p) : Isolated (s.writeHandler p answer) := by
  obtain ⟨hpos, -, -, hopen, hnext⟩ := hw.served _ p hash
  obtain ⟨g, hclient⟩ := Option.ne_none_iff_exists'.mp hopen
  have hremove : Serves s (s.setReactor (s.reactor.removeWrite (s.conns p).fd)) p := by
    rw [← setConn_self (s.setReactor _) p]
    exact serves_interest Reactor.touches_removeWrite rfl (.inl rfl)
  have hremoved : Isolated (s.setReactor (s.reactor.removeWrite (s.conns p).fd)) := by
    have ha : Answers s (s.setReactor (s.reactor.removeWrite (s.conns p).fd)) p g [] [] := by
      rw [← setConn_self (s.setReactor _) p]
      exact h.interest hash hclient rfl rfl rfl
    exact h.answers hw hash hclient hremove ha
  rcases writeHandler_cases p answer with ⟨-, -, heq⟩ | hs
  · rw [heq]
    exact hremoved.close (hw.serves hremove hnext) hpos
  · unfold HttpThread.writeHandler at hs ⊢
    simp only at hs ⊢
    split
    · next hempty =>
        rw [if_pos hempty] at hs
        split
        · exact hremoved.close (hw.serves hremove hnext) hpos
        · exact hremoved
    · next hempty =>
        rw [if_neg hempty] at hs
        cases answer with
        | again => exact h
        | error => exact h.answers hw hash hclient hs (h.interest hash hclient rfl rfl rfl)
        | zero => exact h.answers hw hash hclient hs (h.interest hash hclient rfl rfl rfl)
        | wrote n =>
            simp only [deliver_eq hclient] at hs ⊢
            have ha : Answers s (HttpThread.setConn { s with
                sent := Function.update s.sent g (s.sent g ++ (s.conns p).writeBuffer.take n) } p
                { s.conns p with writeBuffer := (s.conns p).writeBuffer.drop n }) p g []
                ((s.conns p).writeBuffer.take n) := {
              replies := by simp [setConn]
              sent := rfl
              buffer := by simp [setConn]
              source := by simpa [setConn] using h.source _ p g hash hclient
              sources := fun _ _ => rfl }
            exact h.answers hw hash hclient hs ha

/-! ## Clients -/

/-- An object from the pool or a new one keeps nothing of an earlier client. -/
theorem Isolated.blank (h : Isolated s) (hw : Wired s) : Blank (s.conns s.nextConn) := by
  unfold nextConn
  cases hpool : s.emptyConnections with
  | nil =>
      rw [List.headD_nil, hw.fresh s.next le_rfl]
      exact ⟨rfl, rfl, rfl⟩
  | cons p rest => exact h.pool p (by simp [hpool])

/-- Accepting a client. -/
theorem Isolated.accept (h : Isolated s) (hw : Wired s) {fd : ℤ} (ha : s.Acceptable fd) :
    Isolated (s.accept fd) := by
  obtain ⟨-, hnone, -⟩ := ha
  obtain ⟨hidle, -, htail⟩ := hw.nextConn
  have hblank := h.blank hw
  rw [hw.accept_eq fd, openReactor_eq]
  generalize s.nextConn = p at hidle htail hblank ⊢
  have hclients : (openIo s.reactor.io fd).kernel.clients = s.kernel.clients :=
    (touches_openIo s.reactor.io fd).clients
  have hother : ∀ fd' q, Function.update s.hashConnections fd (some p) fd' = some q →
      (fd' = fd ∧ q = p) ∨ (q ≠ p ∧ s.hashConnections fd' = some q) := by
    intro fd' q hq
    by_cases he : fd' = fd
    · subst he
      rw [Function.update_self] at hq
      exact .inl ⟨rfl, (Option.some.inj hq).symm⟩
    · rw [Function.update_of_ne he] at hq
      refine .inr ⟨?_, hq⟩
      rintro rfl
      have := hw.served fd' _ hq
      omega
  constructor
  case owed =>
    intro fd' q g hq hg
    rw [kernel, hclients] at hg
    rcases hother fd' q hq with ⟨rfl, rfl⟩ | ⟨hqp, hq⟩
    · obtain ⟨hsent, hreplies⟩ := h.waiting fd' g hnone hg
      simp [hsent, hreplies, hblank.writeBuffer]
    · simp only [Function.update_of_ne hqp]
      exact h.owed fd' q g hq hg
  case source =>
    intro fd' q g hq hg
    rw [kernel, hclients] at hg
    rcases hother fd' q hq with ⟨rfl, rfl⟩ | ⟨hqp, hq⟩
    · simp only [Function.update_self]
      exact .inl ⟨hblank.readBuffer, hblank.requests⟩
    · simp only [Function.update_of_ne hqp]
      exact h.source fd' q g hq hg
  case pool =>
    intro q hq
    have hqp : q ≠ p := by
      rintro rfl
      exact htail hq
    simp only [Function.update_of_ne hqp]
    exact h.pool q (List.mem_of_mem_tail hq)
  case apart =>
    intro fd' fd'' g hg hg'
    rw [kernel, hclients] at hg hg'
    exact h.apart fd' fd'' g hg hg'
  case known =>
    intro fd' g hg
    rw [kernel, hclients] at hg
    exact h.known fd' g hg
  case waiting =>
    intro fd' g hq hg
    rw [kernel, hclients] at hg
    have he : fd' ≠ fd := by
      rintro rfl
      simp at hq
    simp only [Function.update_of_ne he] at hq
    exact h.waiting fd' g hq hg
  case coming => exact h.coming
  case isolates => exact h.isolates

/-- A client arrives. -/
theorem Isolated.arrive (h : Isolated s) (hw : Wired s) {fd : ℤ}
    (hfree : s.kernel.clients fd = none) : Isolated { s.setKernel { s.kernel with
        clients := Function.update s.kernel.clients fd (some s.nextClient) } with
      clientQueue := s.clientQueue ++ [fd], nextClient := s.nextClient + 1 } := by
  -- a client is the new one or was there before
  have hcases : ∀ fd' g, Function.update s.kernel.clients fd (some s.nextClient) fd' = some g →
      (fd' = fd ∧ g = s.nextClient) ∨ (g < s.nextClient ∧ s.kernel.clients fd' = some g) := by
    intro fd' g hg
    by_cases he : fd' = fd
    · subst he
      rw [Function.update_self] at hg
      exact .inl ⟨rfl, (Option.some.inj hg).symm⟩
    · rw [Function.update_of_ne he] at hg
      exact .inr ⟨h.known fd' g hg, hg⟩
  have hserved : ∀ fd' q g, s.hashConnections fd' = some q →
      Function.update s.kernel.clients fd (some s.nextClient) fd' = some g →
      s.kernel.clients fd' = some g := by
    intro fd' q g hq hg
    rcases hcases fd' g hg with ⟨rfl, -⟩ | ⟨-, hg⟩
    · exact absurd hfree (hw.served _ q hq).2.2.2.1
    · exact hg
  constructor
  case owed => exact fun fd' q g hq hg => h.owed fd' q g hq (hserved fd' q g hq hg)
  case source => exact fun fd' q g hq hg => h.source fd' q g hq (hserved fd' q g hq hg)
  case pool => exact h.pool
  case apart =>
    intro fd' fd'' g hg hg'
    rcases hcases fd' g hg with ⟨rfl, rfl⟩ | ⟨hlt, hg⟩ <;>
      rcases hcases fd'' _ hg' with ⟨rfl, heq⟩ | ⟨hlt', hg'⟩
    · rfl
    · omega
    · omega
    · exact h.apart fd' fd'' g hg hg'
  case known =>
    intro fd' g hg
    rcases hcases fd' g hg with ⟨-, rfl⟩ | ⟨hlt, -⟩
    · exact Nat.lt_succ_self _
    · exact Nat.lt_succ_of_lt hlt
  case waiting =>
    intro fd' g hq hg
    rcases hcases fd' g hg with ⟨-, rfl⟩ | ⟨-, hg⟩
    · exact h.coming _ le_rfl
    · exact h.waiting fd' g hq hg
  case coming => exact fun g hg => h.coming g (Nat.le_of_succ_le hg)
  case isolates => exact h.isolates

/-! ## Steps -/

/-- **Every clear step keeps the invariant.** -/
theorem Isolated.step (h : Isolated s) (hw : Wired s) {server : HttpServer} {e : ThreadEvent}
    (hclear : Clear s e) (ht : s.step server e = some t) : Isolated t := by
  cases hw.stepped ht with
  | arrive hpos hfree => exact h.arrive hw hfree
  | active _ active => exact h.setActive active
  | wakeup =>
      have htake : Isolated { s with clientQueue := [] } := h.of_eq rfl rfl rfl rfl rfl rfl rfl rfl
      exact (hw.takeQueue.foldl_accept (P := Isolated)
        (fun _ _ hw' ha h' => h'.accept hw' ha) rfl hw.queue hw.queue_nodup htake).2
  | @read _ _ _ rest _ hnext hash hposs ht =>
      exact (h.setActive rest).readHandler (hw.setActive rest) hash ht
  | @write _ _ rest hnext hash => exact (h.setActive rest).writeHandler (hw.setActive rest) hash
  | @timer i d hd =>
      have hdrop : Isolated { s with timers := s.timers.eraseIdx i } :=
        h.of_eq rfl rfl rfl rfl rfl rfl rfl rfl
      exact hdrop.runTimer (hw.dropTimer i) (hclear d hd)

/-- **Isolation.** In every run whose timers find the clients they were set for, every byte a socket
has taken comes from a reply to a request of the client at its other end. -/
theorem isolates_of_clear {server : HttpServer}
    (h : ((system server).guard Clear).Reachable s) : s.Isolates := by
  have hinv : Wired s ∧ Isolated s := by
    refine h.invariant (P := fun s => Wired s ∧ Isolated s) ?_ ?_
    · rintro _ rfl
      exact ⟨wired_start, isolated_start⟩
    · rintro s e t ⟨hw, hi⟩ ⟨hc, ht⟩
      exact ⟨hw.step ht, hi.step hw hc ht⟩
  exact hinv.2.isolates

/-! ## A late reply -/

/-- A server with a handler that replies at once and one that replies later. -/
def delayServer : HttpServer := ⟨[str "/test", str "/largedelay"], false⟩

/-- The answers of its handlers: `/largedelay` sets a timer for its reply. -/
def delayEnv : Env where
  answer _ _ req :=
    let reply := SendOp.reply newYear httpOk (str "OK") (str "funny")
    if req.uri = str "/largedelay" then { later := [[reply]] } else { now := [reply] }
  clock _ := newYear

/-- A client asks for the late reply and is still there when the timer runs. -/
def delayRun : List ThreadEvent :=
  [.arrive 5, .wakeup, .listen [(5, .RD)],
    .read delayEnv (.data (str "GET /largedelay HTTP/1.1\r\n\r\n")), .timer 0,
    .listen [(5, .WR)], .write (.wrote 144)]

/-- The late reply reaches the client that has asked for it, and nothing else does. -/
theorem isolates_delay : ∃ s : HttpThread, (s.sent 0).length = 144 ∧ s.Isolates := by
  have hrun : (delayRun.foldlM (fun (s : HttpThread) e =>
      if Clear s e then s.step delayServer e else none) start).map
        (fun s => (s.sent 0).length) = some 144 := by decide +kernel
  obtain ⟨s, hs, hlength⟩ := Option.map_eq_some_iff.mp hrun
  refine ⟨s, hlength, @isolates_of_clear _ delayServer
    ⟨start, delayRun, rfl, Lts.Run.of_foldlM (fun s e t h => ?_) hs⟩⟩
  exact Option.ite_none_right_eq_some.mp h

/-- A client asks for both and is closed after the first reply; the timer runs; the next client, who
gets the same object, sends a single byte. -/
def reuseRun : List ThreadEvent :=
  [.arrive 5, .wakeup, .listen [(5, .RD)],
    .read delayEnv (.data (str "GET /test HTTP/1.1\r\n\r\n" ++
      str "GET /largedelay HTTP/1.1\r\nConnection: close\r\n\r\n")),
    .listen [(5, .WR)], .write (.wrote 144), .listen [(5, .WR)], .write .again, .timer 0,
    .arrive 5, .wakeup, .listen [(5, .RD)], .read delayEnv (.data (str "G")), .listen [(5, .WR)],
    .write (.wrote 1)]

/-- The next client gets a byte of a reply to the first. -/
theorem not_isolates_reuse :
    ¬ ∀ (server : HttpServer) (s : HttpThread), (system server).Reachable s → s.Isolates := by
  intro h
  have hrun : (reuseRun.foldlM (fun (s : HttpThread) e => s.step delayServer e) start).map
      (fun s => (s.sent 1, s.replies 1)) = some (str "H", []) := by decide +kernel
  obtain ⟨s, hs, hrecord⟩ := Option.map_eq_some_iff.mp hrun
  obtain ⟨hsent, hreplies⟩ := Prod.mk.inj hrecord
  have hreach : (system delayServer).Reachable s :=
    ⟨start, reuseRun, rfl, Lts.Run.of_foldlM (fun _ _ _ h => h) hs⟩
  have hprefix := h delayServer s hreach 1
  rw [hsent, hreplies] at hprefix
  exact absurd hprefix (by decide)

end HttpThread

end Libio
