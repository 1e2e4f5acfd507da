import Libio.Http.Wiring
import Mathlib.Data.Finset.Card

/-! # The objects of a worker

`make_connection` constructs an object only when the pool is empty, and `release_connection` puts an
object back when its client is gone. So an object serves a client or lies in the pool, and a worker
has as many objects as it ever served clients at once. -/

namespace Libio

namespace HttpThread

/-- The objects that `hashConnections` holds. -/
def serving (s : HttpThread) : Finset ℕ :=
  (Finset.range s.next).filter fun p => s.hashConnections (s.conns p).fd = some p

/-- Nothing is lost: an object that serves no descriptor is in the pool. -/
def Housed (s : HttpThread) : Prop :=
  ∀ p, p < s.next → s.hashConnections (s.conns p).fd = some p ∨ p ∈ s.emptyConnections

variable {s t : HttpThread}

/-- **Conservation**: the objects are those that serve and those in the pool. -/
theorem Housed.card (hh : Housed s) (h : Wired s) :
    s.serving.card + s.emptyConnections.length = s.next := by
  have hpool : (Finset.range s.next).filter (fun p => ¬s.hashConnections (s.conns p).fd = some p) =
      s.emptyConnections.toFinset := by
    ext p
    rw [Finset.mem_filter, Finset.mem_range, List.mem_toFinset]
    constructor
    · rintro ⟨hlt, hidle⟩
      exact (hh p hlt).resolve_left hidle
    · intro hp
      obtain ⟨hlt, hfd⟩ := h.pool p hp
      refine ⟨hlt, fun hash => ?_⟩
      have := (h.served _ p hash).1
      omega
  rw [← List.toFinset_card_of_nodup h.pool_nodup, ← hpool, serving,
    Finset.card_filter_add_card_filter_not, Finset.card_range]

/-! ## What the operations do with the objects -/

/-- Working on an object leaves all objects where they are. -/
theorem Housed.serves (hh : Housed s) {p : ℕ} (hs : Serves s t p) : Housed t := by
  intro q hq
  have hfd : (t.conns q).fd = (s.conns q).fd := by
    by_cases he : q = p
    · rw [he, hs.fd]
    · rw [hs.conns q he]
  rw [hfd, hs.hashConnections, hs.emptyConnections]
  exact hh q (hs.next ▸ hq)

/-- An object that is closed goes to the pool. -/
theorem Housed.close (hh : Housed s) (h : Wired s) {p : ℕ} (hpos : 0 < (s.conns p).fd) :
    Housed (s.close p) := by
  have hash := h.hashed p hpos
  rw [close_eq hpos hash]
  intro q hq
  by_cases hqp : q = p
  · exact .inr (List.mem_append_right _ (hqp ▸ List.mem_singleton_self p))
  · rcases hh q hq with hserves | hpool
    · have hne : (s.conns q).fd ≠ (s.conns p).fd := by
        intro he
        rw [he, hash] at hserves
        exact hqp (Option.some.inj hserves).symm
      exact .inl (by simpa [hqp, hne] using hserves)
    · exact .inr (List.mem_append_left _ hpool)

/-- Accepting takes an object out of the pool, or makes one. -/
theorem Housed.accept (hh : Housed s) (h : Wired s) {fd : ℤ} (ha : s.Acceptable fd) :
    Housed (s.accept fd) := by
  rw [h.accept_eq fd]
  intro q hq
  by_cases hqn : q = s.nextConn
  · subst hqn
    exact .inl (by simp)
  · -- another object was there before, and if it was in the pool it still is
    have hlt : q < s.next ∧ (q ∈ s.emptyConnections → q ∈ s.emptyConnections.tail) := by
      unfold HttpThread.nextConn at hqn
      cases hpool : s.emptyConnections with
      | nil =>
          rw [hpool, List.headD_nil] at hqn
          have hq' : q < s.next + 1 := by simpa [hpool] using hq
          exact ⟨by omega, nofun⟩
      | cons p rest =>
          rw [hpool, List.headD_cons] at hqn
          have hq' : q < s.next := by simpa [hpool] using hq
          exact ⟨hq', fun hmem => (List.mem_cons.mp hmem).resolve_left hqn⟩
    rcases hh q hlt.1 with hserves | hpool
    · have hne : (s.conns q).fd ≠ fd := by
        intro he
        rw [he, ha.2.1] at hserves
        cases hserves
      exact .inl (by simpa [hqn, hne] using hserves)
    · exact .inr (hlt.2 hpool)

/-- The objects of `s` are among those of `t`, and `t` has more only when its pool is empty. -/
def Grown (s t : HttpThread) : Prop :=
  s.next ≤ t.next ∧ (t.next = s.next ∨ t.emptyConnections = [])

/-- Nothing is made where the counter stays. -/
theorem Grown.of_next (h : t.next = s.next) : Grown s t := ⟨h.ge, .inl h⟩

/-- An object is made only when there is none in the pool. -/
theorem Grown.accept (hg : Grown s t) (h : Wired t) (fd : ℤ) : Grown s (t.accept fd) := by
  rw [h.accept_eq fd]
  obtain ⟨hle, hcase⟩ := hg
  unfold Grown
  cases hpool : t.emptyConnections with
  | nil => exact ⟨by simp only [if_true]; omega, .inr rfl⟩
  | cons p rest =>
      have heq : t.next = s.next := hcase.resolve_right (by simp [hpool])
      exact ⟨by simpa using hle, .inl (by simpa using heq)⟩

/-- A close makes no object. -/
theorem next_close {p : ℕ} (h : Wired s) (hpos : 0 < (s.conns p).fd) : (s.close p).next = s.next := by
  rw [close_eq hpos (h.hashed p hpos)]

/-- The write handler keeps the objects, whether it closes one or not. -/
theorem Housed.writeHandler (hh : Housed s) (h : Wired s) {p : ℕ}
    (hash : s.hashConnections (s.conns p).fd = some p) (answer : WriteAnswer) :
    Housed (s.writeHandler p answer) ∧ (s.writeHandler p answer).next = s.next := by
  obtain ⟨hpos, -, -, -, hnext⟩ := h.served _ p hash
  rcases writeHandler_cases p answer with ⟨-, -, heq⟩ | hs
  · have hs := serves_setReactor (s := s) (p := p) Reactor.touches_removeWrite
    have hw := h.serves hs hnext
    rw [heq]
    exact ⟨(hh.serves hs).close hw hpos, (next_close hw hpos).trans hs.next⟩
  · exact ⟨hh.serves hs, hs.next⟩

/-- **Every step** keeps all objects, and makes new ones only with an empty pool. -/
theorem Housed.step (hh : Housed s) (h : Wired s) {server : HttpServer} {e : ThreadEvent}
    (ht : s.step server e = some t) : Housed t ∧ Grown s t := by
  cases h.stepped ht with
  | arrive => exact ⟨hh, .of_next rfl⟩
  | active => exact ⟨hh, .of_next rfl⟩
  | wakeup =>
      exact (h.takeQueue.foldl_accept (P := fun u => Housed u ∧ Grown s u)
        (fun u fd hu ha hg => ⟨hg.1.accept hu ha, hg.2.accept hu fd⟩) rfl h.queue h.queue_nodup
        ⟨hh, .of_next rfl⟩).2
  | @read _ _ p rest _ _ hash _ ht =>
      have hs := serves_readHandler ht
      exact ⟨Housed.serves (s := s.setActive rest) hh hs, .of_next hs.next⟩
  | @write answer p rest _ hash =>
      obtain ⟨hh', hnext⟩ := Housed.writeHandler (s := s.setActive rest) hh (h.setActive rest) hash answer
      exact ⟨hh', .of_next hnext⟩
  | @timer i d hd =>
      have hs := serves_runTimer (s := { s with timers := s.timers.eraseIdx i }) d
      exact ⟨Housed.serves (s := { s with timers := s.timers.eraseIdx i }) hh hs, .of_next hs.next⟩

/-! ## Runs -/

/-- **Run lemma.** Every object serves or lies in the pool. -/
theorem housed_of_reachable {server : HttpServer} (h : (system server).Reachable s) : Housed s := by
  have hboth : Wired s ∧ Housed s := by
    refine h.invariant (P := fun s => Wired s ∧ Housed s) ?_ ?_
    · rintro _ rfl
      exact ⟨wired_start, nofun⟩
    · rintro s e t ⟨hw, hh⟩ ht
      exact ⟨hw.step ht, (hh.step hw ht).1⟩
  exact hboth.2

/-- A run goes on from where a first part of it leads. -/
theorem run_rest {server : HttpServer} {bs es : List ThreadEvent} {u : HttpThread}
    (hu : (system server).Run s bs u) (hbs : bs <+: es) (hr : (system server).Run s es t) :
    ∃ cs, (system server).Run u cs t := by
  induction hu generalizing es with
  | nil => exact ⟨es, hr⟩
  | cons hst _ ih =>
      cases hr with
      | nil => exact absurd (List.prefix_nil.mp hbs) (List.cons_ne_nil _ _)
      | cons hst' hr =>
          obtain ⟨rfl, hrest⟩ := List.cons_prefix_cons.mp hbs
          obtain rfl := Option.some.inj (hst.symm.trans hst')
          exact ih hrest hr

/-- A run makes new objects only where it serves as many clients at once. -/
theorem next_run {server : HttpServer} {es : List ThreadEvent} (hr : (system server).Run s es t)
    (h : Wired s) (hh : Housed s) : s.next ≤ t.next ∧
      (t.next = s.next ∨ ∃ bs u, bs <+: es ∧ (system server).Run s bs u ∧ u.serving.card = t.next) := by
  -- on the run from its first step: the last object was made behind it, or at it
  induction hr with
  | nil s => exact ⟨le_rfl, .inl rfl⟩
  | @cons s u t e es hst _ ih =>
      have hw : Wired u := h.step hst
      obtain ⟨hu, hle, hcase⟩ := hh.step h hst
      obtain ⟨hle', hcase'⟩ := ih hw hu
      refine ⟨hle.trans hle', ?_⟩
      rcases hcase' with heq | ⟨bs, v, hbs, hv, hcard⟩
      · rcases hcase with heq' | hempty
        · exact .inl (heq.trans heq')
        · -- with an empty pool all objects serve
          refine .inr ⟨[e], u, ⟨es, rfl⟩, .cons hst (.nil u), ?_⟩
          have hall := hu.card hw
          rw [hempty, List.length_nil, Nat.add_zero] at hall
          rw [hall, heq]
      · exact .inr ⟨e :: bs, v, (List.prefix_cons_inj e).mpr hbs, .cons hst hv, hcard⟩

/-- **As many objects as clients at once**: after any run of a worker, each object serves a client or
lies in the pool, the run never served more clients at once than there are objects now, and at some
point it served as many. -/
theorem objects_peak {server : HttpServer} {es : List ThreadEvent}
    (hr : (system server).Run start es s) :
    s.serving.card + s.emptyConnections.length = s.next ∧
      (∀ bs u, bs <+: es → (system server).Run start bs u → u.serving.card ≤ s.next) ∧
      ∃ bs u, bs <+: es ∧ (system server).Run start bs u ∧ u.serving.card = s.next := by
  have hw₀ : Wired start := wired_start
  have hh₀ : Housed start := nofun
  refine ⟨?_, ?_, ?_⟩
  · have hreach : (system server).Reachable s := ⟨start, es, rfl, hr⟩
    exact (housed_of_reachable hreach).card (wired_of_reachable hreach)
  · intro bs u hbs hu
    obtain ⟨cs, hcs⟩ := run_rest hu hbs hr
    have hreach : (system server).Reachable u := ⟨start, bs, rfl, hu⟩
    have hw := wired_of_reachable hreach
    have hh := housed_of_reachable hreach
    have hcard := hh.card hw
    have hle := (next_run hcs hw hh).1
    omega
  · rcases (next_run hr hw₀ hh₀).2 with heq | hpeak
    · exact ⟨[], start, List.nil_prefix, .nil start, heq.symm⟩
    · exact hpeak

/-- A client hangs up, and the next one gets its object. -/
def hangUpRun : List ThreadEvent :=
  [.arrive 5, .wakeup, .listen [(5, .RDWR)], .read ⟨fun _ _ _ => {}, fun _ => newYear⟩ .eof,
    .write .again, .arrive 6, .wakeup]

/-- Two clients in a row need one object. -/
theorem objects_peak_hangUp : ∃ s : HttpThread, s.next = 1 ∧
    s.serving.card + s.emptyConnections.length = 1 := by
  let server : HttpServer := ⟨[], false⟩
  have hrun : (hangUpRun.foldlM (fun (s : HttpThread) e => s.step server e) start).map
      (fun s => s.next) = some 1 := by
    decide +kernel
  obtain ⟨s, hs, hnext⟩ := Option.map_eq_some_iff.mp hrun
  have hr : (system server).Run start hangUpRun s := Lts.Run.of_foldlM (fun _ _ _ h => h) hs
  exact ⟨s, hnext, (objects_peak hr).1.trans hnext⟩

end HttpThread

end Libio
