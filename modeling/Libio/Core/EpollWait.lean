import Libio.Core.IoMultiplex

/-! # epoll_wait

The class `epoll` of `core/epoll.hh` with the members that `listen` fills, behind the interface of a
multiplexer. -/

namespace Libio

/-- The class `epoll` with what `listen` found. -/
structure EpollWait extends Results where
  io : Epoll

namespace EpollWait

variable (e : EpollWait)

/-- What the constructor leaves: no interest, here and in the kernel. -/
def fresh (clients : ℤ → Option ℕ) : EpollWait where
  io := ⟨fun _ => none, ⟨clients, fun _ => none⟩⟩

/-- `listen(timeout)`, with the answer of the kernel: the filled part of `epevents`. -/
def listen (a : KernelAnswer (List (ℤ × Revents))) : ℤ × EpollWait :=
  match a with
  | .ready epevents =>
      (epevents.length,
        { e with toResults := Results.enterAll {} (epevents.map fun ev => (ev.1, ev.2.event)) })
  | .timeout => (0, { e with toResults := {} })
  | .error => (-1, e)

/-- The calls about interest. -/
def call : IoCall → Except Fault (Option Bool × EpollWait)
  | .add fd type => .ok (none, { e with io := (e.io.add fd type).2 })
  | .remove fd type => .ok (none, { e with io := (e.io.remove fd type).2 })
  | .isReadset fd => .ok (some (e.io.isReadset fd), e)
  | .isWriteset fd => .ok (some (e.io.isWriteset fd), e)

/-- The kernel reports registered descriptors, each once and with some event. -/
def Admits (a : KernelAnswer (List (ℤ × Revents))) : Prop :=
  match a with
  | .ready epevents => (epevents.map Prod.fst).Nodup ∧
      ∀ ev ∈ epevents, ev.2.event ≠ .zero ∧ e.io.kernel.registered ev.1 ≠ none
  | .timeout => True
  | .error => True

/-- What an answer reports. -/
def reported (a : KernelAnswer (List (ℤ × Revents))) : InterestSet :=
  match a with
  | .ready epevents => Results.reportOf (epevents.map fun ev => (ev.1, ev.2.event))
  | .timeout => .empty
  | .error => .empty

/-- The class behind the interface. -/
def multiplex : IoMultiplex where
  State := EpollWait
  Report := List (ℤ × Revents)
  new e := ∃ clients, e = fresh clients
  call := call
  listen e a := .ok (e.listen a)
  getActiveFd e := e.activeFd
  isReadable e fd := .ok (e.isReadable fd)
  isWriteable e fd := .ok (e.isWriteable fd)
  Covers _ := True
  Admits := Admits
  reported _ := reported
  interest e := e.io.old

variable {e}

/-! ## What `listen` shows -/

/-- **What `listen` does**: it shows the report, unless the call fails. -/
theorem listen_spec (h : e.Consistent) {a : KernelAnswer (List (ℤ × Revents))} (ha : e.Admits a) :
    (e.listen a).2.Consistent ∧
      (e.listen a).2.shown = if a = .error then e.shown else reported a := by
  cases a with
  | timeout => exact ⟨Results.consistent_empty, rfl⟩
  | error => exact ⟨h, rfl⟩
  | ready epevents =>
      obtain ⟨hnodup, hevents⟩ := ha
      have hne : ∀ ev ∈ epevents.map fun ev => (ev.1, ev.2.event), ev.2 ≠ .zero := by
        intro ev hev
        obtain ⟨ev', hev', rfl⟩ := List.mem_map.mp hev
        exact (hevents ev' hev').1
      have hkeys : ((epevents.map fun ev => (ev.1, ev.2.event)).map Prod.fst).Nodup := by
        simpa [Function.comp_def] using hnodup
      have hlisten : (e.listen (.ready epevents)).2.toResults =
          Results.collect {} (epevents.map fun ev => (ev.1, ev.2.event)) :=
        Results.enterAll_eq_collect hne
      rw [hlisten, Results.shown_collect_empty hkeys]
      exact ⟨Results.consistent_empty.collect _, rfl⟩

/-- **`epoll` keeps stale descriptors** after a failed call alone. -/
theorem reports_iff (h : e.Consistent) {a : KernelAnswer (List (ℤ × Revents))} (ha : e.Admits a) :
    multiplex.Reports e a ↔ a ≠ .error ∨ e.activeFd = [] := by
  obtain ⟨hcons, hshown⟩ := listen_spec h ha
  have hlisten : multiplex.listen e a = .ok ((e.listen a).1, (e.listen a).2) := rfl
  have hshows : multiplex.Shows (e.listen a).2 (reported a) ↔ (e.listen a).2.shown = reported a :=
    IoMultiplex.shows_iff_shown hcons (fun _ => trivial) rfl (fun _ => rfl) fun _ => rfl
  refine (IoMultiplex.reports_iff_shows hlisten).trans (hshows.trans ?_)
  rw [hshown]
  by_cases herror : a = .error
  · rw [if_pos herror, or_iff_right (not_not.mpr herror)]
    subst herror
    exact h.shown_eq_empty_iff
  · rw [if_neg herror]
    exact iff_of_true rfl (.inl herror)

/-- Every reachable state is consistent. -/
theorem consistent_of_reachable (h : multiplex.lts.Reachable e) : e.Consistent := by
  refine h.invariant (P := fun e : EpollWait => e.Consistent) ?_ ?_
  · rintro _ ⟨clients, rfl⟩
    exact Results.consistent_empty
  · intro e ev t he hstep
    cases ev with
    | call c =>
        obtain ⟨o, hcall⟩ := hstep
        cases c <;>
          · obtain ⟨-, rfl⟩ := Prod.mk.inj (Except.ok.inj hcall)
            exact he
    | listen a =>
        obtain ⟨ha, res, hlisten⟩ := hstep
        obtain rfl : (e.listen a).2 = t := congrArg Prod.snd (Except.ok.inj hlisten)
        exact (listen_spec he ha).1

/-! ## Following the set of interests -/

/-- A state that calls lead to: the map is in step with the kernel, and no closed descriptor is
recorded. -/
structure Wf (clients : ℤ → Option ℕ) (e : EpollWait) : Prop where
  opened : e.io.kernel.clients = clients
  synced : ∀ fd, e.io.Synced fd
  closed : ∀ fd, clients fd = none → e.io.old fd = .zero

/-- The calls after which `epoll` has the interest asked for: `add` of an open descriptor. -/
def Completes (clients : ℤ → Option ℕ) : IoCall → Prop
  | .add fd _ => clients fd ≠ none
  | _ => True

instance (clients : ℤ → Option ℕ) : DecidablePred (Completes clients)
  | .add fd _ => inferInstanceAs (Decidable (clients fd ≠ none))
  | .remove _ _ | .isReadset _ | .isWriteset _ => .isTrue trivial

variable {clients : ℤ → Option ℕ} {fd : ℤ} {type : Mask}

/-- The interest after an operation on one descriptor. -/
theorem old_touches {io io' : Epoll} (h : Epoll.Touches fd io io') :
    io'.old = Function.update io.old fd (io'.old fd) := by
  funext fd'
  by_cases hne : fd' = fd
  · subst hne
    rw [Function.update_self]
  · rw [Function.update_of_ne hne, h.old hne]

/-- Adding an event of an open descriptor adds it to the set of interests. -/
theorem old_add {io : Epoll} (h : io.Synced fd) (hfd : 0 ≤ fd) (htype : type ≠ .zero)
    (hopen : io.kernel.clients fd ≠ none) : (io.add fd type).2.old = InterestSet.add io.old fd type := by
  rw [old_touches Epoll.touches_add, (h.add hfd htype).2 hopen]
  rfl

/-- Removing an event removes it from the set of interests. -/
theorem old_remove {io : Epoll} (h : io.Synced fd) (hfd : 0 ≤ fd) (htype : type ≠ .zero) :
    (io.remove fd type).2.old = InterestSet.remove io.old fd type := by
  rw [old_touches Epoll.touches_remove, (h.remove hfd htype).2]
  rfl

/-- A closed descriptor is not registered. -/
theorem Wf.add_closed (h : Wf clients e) (hclosed : clients fd = none) :
    (e.io.add fd type).2.old fd = .zero := by
  have hzero := h.closed fd hclosed
  have hset : (e.io.setEvents fd (some .zero)).old fd = .zero := by simp [Epoll.old, Epoll.setEvents]
  have hctl : ∀ event, (e.io.setEvents fd (some .zero)).kernel.epollCtl .add fd event = none :=
    fun event => if_neg fun hc => hc.1 (by rw [← hclosed, ← h.opened]; rfl)
  unfold Epoll.add
  split
  · exact hzero
  · simp only [hzero]
    split
    · exact hset
    · rw [if_pos trivial, hctl]
      exact hset

/-- **Adding** keeps the map in step with the kernel. -/
theorem Wf.add (h : Wf clients e) (hfd : 0 ≤ fd) (htype : type ≠ .zero) :
    Wf clients { e with io := (e.io.add fd type).2 } where
  opened := Epoll.touches_add.clients.trans h.opened
  synced fd' := by
    by_cases hne : fd' = fd
    · subst hne
      exact ((h.synced fd').add hfd htype).1
    · exact Epoll.touches_add.synced hne (h.synced fd')
  closed fd' hclosed := by
    by_cases hne : fd' = fd
    · subst hne
      exact h.add_closed hclosed
    · exact (Epoll.touches_add.old hne).trans (h.closed fd' hclosed)

/-- **Removing** keeps the map in step with the kernel. -/
theorem Wf.remove (h : Wf clients e) (hfd : 0 ≤ fd) (htype : type ≠ .zero) :
    Wf clients { e with io := (e.io.remove fd type).2 } where
  opened := Epoll.touches_remove.clients.trans h.opened
  synced fd' := by
    by_cases hne : fd' = fd
    · subst hne
      exact ((h.synced fd').remove hfd htype).1
    · exact Epoll.touches_remove.synced hne (h.synced fd')
  closed fd' hclosed := by
    by_cases hne : fd' = fd
    · subst hne
      rw [((h.synced fd').remove hfd htype).2, h.closed fd' hclosed, Mask.zero_without]
    · exact (Epoll.touches_remove.old hne).trans (h.closed fd' hclosed)

/-- **One call.** With an open descriptor `epoll` does what the set of interests does. -/
theorem Wf.matches_iff (h : Wf clients e) {c : IoCall} (hc : c.Valid) :
    Matches multiplex.call InterestSet.call multiplex.interest e c ↔ Completes clients c := by
  cases c with
  | add fd type =>
      constructor
      · rintro ⟨o, t, hcall, hview⟩ hclosed
        obtain ⟨-, rfl⟩ := Prod.mk.inj (Except.ok.inj hcall)
        have hold : (e.io.add fd type).2.old fd = (e.io.old fd).or type := by
          have hview := congrFun (congrArg Prod.snd hview) fd
          simpa [multiplex, InterestSet.call, InterestSet.add] using hview
        rw [h.add_closed hclosed] at hold
        exact Mask.or_ne_zero hc.2 hold.symm
      · intro hopen
        have hopen : e.io.kernel.clients fd ≠ none := by
          rw [h.opened]
          exact hopen
        exact ⟨none, _, rfl, Prod.ext rfl (old_add (h.synced fd) hc.1.1 hc.2 hopen)⟩
  | remove fd type =>
      exact iff_of_true ⟨none, _, rfl, Prod.ext rfl (old_remove (h.synced fd) hc.1.1 hc.2)⟩ trivial
  | isReadset fd => exact iff_of_true ⟨_, e, rfl, rfl⟩ trivial
  | isWriteset fd => exact iff_of_true ⟨_, e, rfl, rfl⟩ trivial

/-- Every valid call keeps the map in step with the kernel. -/
theorem Wf.call (h : Wf clients e) {c : IoCall} (hc : c.Valid) {o : Option Bool} {t : EpollWait}
    (hcall : e.call c = .ok (o, t)) : Wf clients t := by
  cases c with
  | add fd type =>
      obtain ⟨-, rfl⟩ := Prod.mk.inj (Except.ok.inj hcall)
      exact h.add hc.1.1 hc.2
  | remove fd type =>
      obtain ⟨-, rfl⟩ := Prod.mk.inj (Except.ok.inj hcall)
      exact h.remove hc.1.1 hc.2
  | isReadset fd =>
      obtain ⟨-, rfl⟩ := Prod.mk.inj (Except.ok.inj hcall)
      exact h
  | isWriteset fd =>
      obtain ⟨-, rfl⟩ := Prod.mk.inj (Except.ok.inj hcall)
      exact h

/-- **`epoll` follows the set of interests** along the calls that add open descriptors. -/
theorem followsSet_iff {calls : List IoCall} (hcalls : ∀ c ∈ calls, c.Valid) :
    multiplex.FollowsSet (fresh clients) calls ↔
      AllMeet InterestSet.call (fun _ => Completes clients) .empty calls := by
  have hkeep : ∀ e c o t, Wf clients e → c.Valid → multiplex.call e c = .ok (o, t) → Wf clients t :=
    fun _ _ _ _ h hc hcall => h.call hc hcall
  have hstep : ∀ e c, Wf clients e → c.Valid →
      (Matches multiplex.call InterestSet.call multiplex.interest e c ↔ Completes clients c) :=
    fun _ _ h hc => h.matches_iff hc
  exact follows_iff (C := fun _ => Completes clients) hkeep hstep ⟨rfl, fun _ => rfl, fun _ _ => rfl⟩
    hcalls

end EpollWait

end Libio
