import Libio.Core.EpollWait
import Libio.Model.Reactor

/-! # The loop of the reactor

`reactor::loop` of `model/reactor.hh` step by step: callbacks set, remove and erase handlers of any
descriptor while a batch of active descriptors is dispatched, and the descriptors in `needclean`
lose their channels at the end of a round. The multiplexer is the set of interests, whichever class
it is.

`dispatches_of_careful` says which steps never lead to a descriptor without a channel, and
`handler_kept_iff` when a handler that was set stays set. -/

namespace Libio

universe u

/-! ## Channels -/

namespace Dir

/-- The events of a direction. -/
def mask : Dir → Mask
  | .read => .RD
  | .write => .WR

/-- The other direction. -/
def other : Dir → Dir
  | .read => .write
  | .write => .read

/-- The bit of a direction in a mask. -/
def watches : Dir → Mask → Bool
  | .read, m => m.rd
  | .write, m => m.wr

/-- Interest in neither direction is none. -/
theorem eq_zero_of_watches {m : Mask} (h : ∀ d : Dir, d.watches m = false) : m = .zero := by
  have hr : m.rd = false := h .read
  have hw : m.wr = false := h .write
  rw [show m = ⟨m.rd, m.wr⟩ from rfl, hr, hw]
  rfl

/-- What is watched when interest is added. -/
theorem watches_add (x : InterestSet) (fd fd' : ℤ) (d d' : Dir) :
    d'.watches (x.add fd d.mask fd') = (decide (fd' = fd ∧ d' = d) || d'.watches (x fd')) := by
  by_cases hfd : fd' = fd
  · subst hfd
    cases d <;> cases d' <;> simp [InterestSet.add, watches, mask, Mask.or, Mask.RD, Mask.WR]
  · simp [InterestSet.add, hfd]

/-- What is watched when interest is removed. -/
theorem watches_remove (x : InterestSet) (fd fd' : ℤ) (d d' : Dir) :
    d'.watches (x.remove fd d.mask fd') = (!decide (fd' = fd ∧ d' = d) && d'.watches (x fd')) := by
  by_cases hfd : fd' = fd
  · subst hfd
    cases d <;> cases d' <;> simp [InterestSet.remove, watches, mask, Mask.without, Mask.RD, Mask.WR]
  · simp [InterestSet.remove, hfd]

end Dir

variable {κ : Type u}

/-- A channel with one of its callbacks replaced. -/
def Channel.set (c : Channel κ) (d : Dir) (f : Option κ) : Channel κ :=
  match d with
  | .read => { c with readcb := f }
  | .write => { c with writecb := f }

/-- The callback of a direction that was set. -/
@[simp] theorem callback_set_self (c : Channel κ) (d : Dir) (f : Option κ) :
    Reactor.callback (c.set d f) d = f := by
  cases d <;> rfl

/-- The callback of the other direction stays. -/
theorem callback_set_of_ne (c : Channel κ) {d d' : Dir} (h : d' ≠ d) (f : Option κ) :
    Reactor.callback (c.set d f) d' = Reactor.callback c d' := by
  cases d <;> cases d' <;> first | rfl | exact absurd rfl h

/-! ## The loop -/

/-- Where the thread of the reactor stands: outside `loop` or in front of `listen`; in a callback or
a timer, with the events that are still to be looked at; or in front of the next of these events. -/
inductive LoopPhase
  | idle
  | running (batch : List (ℤ × Dir))
  | dispatching (batch : List (ℤ × Dir))
  deriving DecidableEq

/-- The events that are still to be looked at. -/
def LoopPhase.batch : LoopPhase → List (ℤ × Dir)
  | .idle => []
  | .running batch => batch
  | .dispatching batch => batch

/-- The reactor with the interest its multiplexer records. -/
structure ReactorLoop (κ : Type u) where
  channels : ℤ → Option (Channel κ) := fun _ => none
  needclean : List ℤ := []
  interest : InterestSet := .empty
  phase : LoopPhase := .idle

/-- A call that changes the channels: `set_read_handler` and `set_write_handler`,
`remove_read_handler` and `remove_write_handler`, `erase`, `clear`. -/
inductive ChannelOp (κ : Type u)
  | set (fd : ℤ) (d : Dir) (f : κ)
  | remove (fd : ℤ) (d : Dir)
  | erase (fd : ℤ)
  | clear
  deriving DecidableEq

/-- A step of the thread: a call from a callback or from outside `loop`; `listen` with its answer;
the end of a callback or of the timers; a look at the next event; the clean-up at the end of a
round. -/
inductive LoopEvent (κ : Type u)
  | op (o : ChannelOp κ)
  | listen (events : List (ℤ × Mask))
  | resume
  | dispatch
  | clean
  deriving DecidableEq

namespace ReactorLoop

variable (s : ReactorLoop κ)

/-- Replace the channel of a descriptor. -/
def setChannel (fd : ℤ) (c : Option (Channel κ)) : ReactorLoop κ :=
  { s with channels := Function.update s.channels fd c }

/-- `set_read_handler(fd, f)` and `set_write_handler(fd, f)`. -/
def setHandler (fd : ℤ) (d : Dir) (f : κ) : ReactorLoop κ :=
  { s.setChannel fd (some (((s.channels fd).getD {}).set d (some f))) with
    interest := InterestSet.add s.interest fd d.mask }

/-- `remove_read_handler(fd)` and `remove_write_handler(fd)`. -/
def removeHandler (fd : ℤ) (d : Dir) : ReactorLoop κ :=
  match s.channels fd with
  | none => s
  | some c =>
      { s.setChannel fd (some (c.set d none)) with
        needclean :=
          if (Reactor.callback c d.other).isNone then s.needclean ++ [fd] else s.needclean
        interest := InterestSet.remove s.interest fd d.mask }

/-- `erase(fd)`. -/
def erase (fd : ℤ) : ReactorLoop κ := s.setChannel fd none

/-- `clear()`. -/
def clear : ReactorLoop κ := { s with channels := fun _ => none }

/-- A call; `init_channel` ends the process for a negative descriptor. -/
def apply : ChannelOp κ → Option (ReactorLoop κ)
  | .set fd d f => if fd < 0 then none else some (s.setHandler fd d f)
  | .remove fd d => some (s.removeHandler fd d)
  | .erase fd => some (s.erase fd)
  | .clear => some s.clear

/-- The clean-up: the descriptors in `needclean` lose their channels. -/
def clean : ReactorLoop κ := { s.needclean.foldl erase s with needclean := [] }

/-- A step. A look at an event whose descriptor has no channel follows a null pointer. -/
def step : LoopEvent κ → Option (ReactorLoop κ)
  | .op o =>
      match s.phase with
      | .dispatching _ => none
      | _ => s.apply o
  | .listen events =>
      if s.phase = .idle ∧ ∀ e ∈ events, s.interest e.1 ≠ .zero then
        some { s with phase := .running (events.flatMap Reactor.eventsOf) }
      else none
  | .resume =>
      match s.phase with
      | .running batch => some { s with phase := .dispatching batch }
      | _ => none
  | .dispatch =>
      match s.phase with
      | .dispatching ((fd, d) :: batch) =>
          (s.channels fd).map fun c =>
            { s with phase := if (Reactor.callback c d).isSome then .running batch
                              else .dispatching batch }
      | _ => none
  | .clean =>
      match s.phase with
      | .dispatching [] => some { s.clean with phase := .idle }
      | _ => none

/-- The reactor as a transition system. -/
def lts (κ : Type u) : Lts (ReactorLoop κ) (LoopEvent κ) where
  init s := s = {}
  step s e t := s.step e = some t

/-- Each time the loop looks at an event of a descriptor, the descriptor has a channel. -/
def Dispatches : Prop :=
  ∀ fd d batch, s.phase = .dispatching ((fd, d) :: batch) → s.channels fd ≠ none

/-- The callback of a descriptor for one direction. -/
def handler (fd : ℤ) (d : Dir) : Option κ := (s.channels fd).bind fun c => Reactor.callback c d

variable {s} {t : ReactorLoop κ} {fd : ℤ} {d : Dir}

/-! ## The clean-up -/

/-- The channels after several descriptors were erased. -/
theorem foldl_erase (fds : List ℤ) : fds.foldl erase s =
    { s with channels := fun fd => if fd ∈ fds then none else s.channels fd } := by
  induction fds generalizing s with
  | nil => simp
  | cons k fds ih =>
      rw [List.foldl_cons, ih]
      congr 1
      funext fd
      by_cases hk : fd = k
      · subst hk
        simp [erase, setChannel]
      · simp [erase, setChannel, hk]

/-- The clean-up drops the channels that are queued for it. -/
theorem channels_clean : s.clean.channels fd = if fd ∈ s.needclean then none else s.channels fd := by
  rw [clean, foldl_erase]

/-- The clean-up leaves the interest alone. -/
@[simp] theorem interest_clean : s.clean.interest = s.interest := by
  rw [clean, foldl_erase]

/-! ## Every way in which a step is taken -/

/-- A call is made outside of dispatching, and leaves the phase as it is. -/
theorem step_op {o : ChannelOp κ} (h : s.step (.op o) = some t) :
    s.apply o = some t ∧ t.phase = s.phase := by
  have happly : s.apply o = some t := by
    simp only [step] at h
    split at h
    · cases h
    · exact h
  refine ⟨happly, ?_⟩
  cases o with
  | set fd d f =>
      obtain ⟨-, ht⟩ := Option.ite_none_left_eq_some.mp happly
      obtain rfl := Option.some.inj ht
      rfl
  | remove fd d =>
      obtain rfl := Option.some.inj happly
      unfold removeHandler
      split <;> rfl
  | erase fd =>
      obtain rfl := Option.some.inj happly
      rfl
  | clear =>
      obtain rfl := Option.some.inj happly
      rfl

/-- What a step of `listen` does. -/
theorem step_listen {events : List (ℤ × Mask)} (h : s.step (.listen events) = some t) :
    (∀ e ∈ events, s.interest e.1 ≠ .zero) ∧
      t = { s with phase := .running (events.flatMap Reactor.eventsOf) } := by
  obtain ⟨hguard, ht⟩ := Option.ite_none_right_eq_some.mp h
  exact ⟨hguard.2, (Option.some.inj ht).symm⟩

/-- What the end of the timers' callbacks does. -/
theorem step_resume (h : s.step .resume = some t) :
    t = { s with phase := .dispatching s.phase.batch } := by
  simp only [step] at h
  split at h
  · next hphase =>
      obtain rfl := Option.some.inj h
      rw [hphase]
      rfl
  · cases h

/-- What a dispatch does. -/
theorem step_dispatch (h : s.step .dispatch = some t) :
    ∃ fd d batch, s.phase.batch = (fd, d) :: batch ∧ t = { s with phase := t.phase } ∧
      t.phase.batch = batch := by
  simp only [step] at h
  split at h
  · next fd d batch hphase =>
      obtain ⟨c, -, rfl⟩ := Option.map_eq_some_iff.mp h
      refine ⟨fd, d, batch, by rw [hphase]; rfl, rfl, ?_⟩
      simp only
      split <;> rfl
  · cases h

/-- A dispatch does not end the round. -/
theorem phase_ne_idle_of_dispatch (h : s.step .dispatch = some t) : t.phase ≠ .idle := by
  simp only [step] at h
  split at h
  · obtain ⟨c, -, rfl⟩ := Option.map_eq_some_iff.mp h
    simp only
    split <;> nofun
  · cases h

/-- What the end of a round does. -/
theorem step_clean (h : s.step .clean = some t) : t = { s.clean with phase := .idle } := by
  simp only [step] at h
  split at h
  · exact (Option.some.inj h).symm
  · cases h

/-! ## No channel is missed -/

/-- The invariant: a descriptor that is watched, or ahead in the batch, has a channel. -/
structure Sound (s : ReactorLoop κ) : Prop where
  watched : ∀ fd, s.interest fd ≠ .zero → s.channels fd ≠ none
  batch : ∀ e ∈ s.phase.batch, s.channels e.1 ≠ none

/-- The steps that take no channel away which may be asked for: `erase` and `clear` when the
descriptor is neither watched nor ahead in the batch, and a clean-up of descriptors that are not
watched. -/
def Careful (s : ReactorLoop κ) : LoopEvent κ → Prop
  | .op (.erase fd) => s.interest fd = .zero ∧ ∀ e ∈ s.phase.batch, e.1 ≠ fd
  | .op .clear => (∀ fd, s.interest fd = .zero) ∧ s.phase.batch = []
  | .clean => ∀ fd ∈ s.needclean, s.interest fd = .zero
  | _ => True

/-- A change of channels that keeps those which may be asked for. -/
theorem Sound.of_channels (h : s.Sound) (hbatch : ∀ e ∈ t.phase.batch, e ∈ s.phase.batch)
    (hinterest : ∀ fd, t.interest fd ≠ .zero → s.interest fd ≠ .zero ∨ t.channels fd ≠ none)
    (hchannels : ∀ fd, s.interest fd ≠ .zero ∨ (∃ e ∈ t.phase.batch, e.1 = fd) →
      s.channels fd ≠ none → t.channels fd ≠ none) : t.Sound where
  watched fd hfd :=
    (hinterest fd hfd).elim (fun hs => hchannels fd (.inl hs) (h.watched fd hs)) id
  batch e he := hchannels e.1 (.inr ⟨e, he, rfl⟩) (h.batch e (hbatch e he))

/-- Setting a handler makes the channel it needs. -/
theorem Sound.setHandler (h : s.Sound) (f : κ) : (s.setHandler fd d f).Sound := by
  refine h.of_channels (fun _ he => he) (fun fd' hfd' => ?_) fun fd' _ hc => ?_
  · by_cases hne : fd' = fd
    · subst hne
      exact .inr (by simp [ReactorLoop.setHandler, setChannel])
    · exact .inl (by simpa [ReactorLoop.setHandler, InterestSet.add, hne] using hfd')
  · by_cases hne : fd' = fd
    · subst hne
      simp [ReactorLoop.setHandler, setChannel]
    · simpa [ReactorLoop.setHandler, setChannel, hne] using hc

/-- Removing a handler keeps the channel until the clean-up. -/
theorem Sound.removeHandler (h : s.Sound) : (s.removeHandler fd d).Sound := by
  unfold ReactorLoop.removeHandler
  cases hc : s.channels fd with
  | none => exact h
  | some c =>
      refine h.of_channels (fun _ he => he) (fun fd' hfd' => .inl ?_) fun fd' _ hc' => ?_
      · by_cases hne : fd' = fd
        · subst hne
          intro hz
          exact hfd' (by simp [InterestSet.remove, hz])
        · simpa [InterestSet.remove, hne] using hfd'
      · by_cases hne : fd' = fd
        · subst hne
          simp [setChannel]
        · simpa [setChannel, hne] using hc'

/-- **A careful step** keeps every channel that may be asked for. -/
theorem Sound.step (h : s.Sound) {e : LoopEvent κ} (hc : Careful s e) (he : s.step e = some t) :
    t.Sound := by
  cases e with
  | op o =>
      obtain ⟨happly, -⟩ := step_op he
      cases o with
      | set fd d f =>
          obtain ⟨-, ht⟩ := Option.ite_none_left_eq_some.mp happly
          obtain rfl := Option.some.inj ht
          exact h.setHandler f
      | remove fd d =>
          obtain rfl := Option.some.inj happly
          exact h.removeHandler
      | erase fd =>
          obtain rfl := Option.some.inj happly
          refine h.of_channels (fun _ he => he) (fun fd' hfd' => .inl hfd') fun fd' hneeded hch => ?_
          have hne : fd' ≠ fd := by
            rintro rfl
            rcases hneeded with hint | ⟨e, he, rfl⟩
            · exact hint hc.1
            · exact hc.2 e he rfl
          simpa [erase, setChannel, hne] using hch
      | clear =>
          obtain rfl := Option.some.inj happly
          refine ⟨fun fd' hfd' => absurd (hc.1 fd') hfd', fun e he => ?_⟩
          have hnil : s.clear.phase.batch = [] := hc.2
          rw [hnil] at he
          cases he
  | listen events =>
      obtain ⟨hevents, rfl⟩ := step_listen he
      refine ⟨h.watched, fun e he => ?_⟩
      obtain ⟨event, hevent, hin⟩ := List.mem_flatMap.mp he
      have hfd : e.1 = event.1 := by
        unfold Reactor.eventsOf at hin
        rcases List.mem_append.mp hin with hin | hin <;>
          · split at hin
            · exact congrArg Prod.fst (List.mem_singleton.mp hin)
            · cases hin
      rw [hfd]
      exact h.watched event.1 (hevents event hevent)
  | resume =>
      rw [step_resume he]
      exact ⟨h.watched, h.batch⟩
  | dispatch =>
      obtain ⟨fd, d, batch, hbatch, ht, hrest⟩ := step_dispatch he
      rw [ht]
      refine ⟨h.watched, fun e he => h.batch e ?_⟩
      rw [hbatch]
      exact List.mem_cons_of_mem _ (hrest ▸ he)
  | clean =>
      rw [step_clean he]
      refine ⟨fun fd hfd => ?_, fun e he => by cases he⟩
      have hfd : s.interest fd ≠ .zero := by simpa using hfd
      have hqueued : fd ∉ s.needclean := fun hin => hfd (hc fd hin)
      simpa [channels_clean, hqueued] using h.watched fd hfd

/-- **Dispatch meets no missing channel** in a run of careful steps. -/
theorem dispatches_of_careful (h : ((lts κ).guard Careful).Reachable s) : s.Dispatches := by
  have hsound : s.Sound := by
    refine h.invariant ?_ fun s e t hs hstep => hs.step hstep.1 hstep.2
    rintro _ rfl
    exact ⟨fun fd hfd => absurd rfl hfd, fun e he => by cases he⟩
  intro fd d batch hphase
  exact hsound.batch (fd, d) (by rw [hphase]; exact List.mem_cons_self)

/-- A callback of descriptor 5 sets the other handler and then removes itself. -/
theorem dispatches_turn :
    ∃ s : ReactorLoop ℕ, s.phase = .dispatching [(5, .write)] ∧ s.Dispatches := by
  have h₀ : ((lts ℕ).guard Careful).Reachable {} := .of_init rfl
  have h₁ := h₀.step (a := LoopEvent.op (.set 5 .read 0)) ⟨trivial, rfl⟩
  have h₂ := h₁.step (a := LoopEvent.listen [(5, .RD)]) ⟨trivial, rfl⟩
  have h₃ := (h₂.step (a := LoopEvent.resume) ⟨trivial, rfl⟩).step (a := LoopEvent.dispatch)
    ⟨trivial, rfl⟩
  have h₄ := h₃.step (a := LoopEvent.op (.set 5 .write 1)) ⟨trivial, rfl⟩
  have h₅ := h₄.step (a := LoopEvent.op (.remove 5 .read)) ⟨trivial, rfl⟩
  have h₆ := (h₅.step (a := LoopEvent.resume) ⟨trivial, rfl⟩).step (a := LoopEvent.clean) ⟨nofun, rfl⟩
  have h₇ := h₆.step (a := LoopEvent.listen [(5, .WR)]) ⟨trivial, rfl⟩
  have h₈ := h₇.step (a := LoopEvent.resume) ⟨trivial, rfl⟩
  exact ⟨_, rfl, dispatches_of_careful h₈⟩

/-- A callback of descriptor 5 removes itself and then sets the other handler: the clean-up takes
the channel away, and the next event of the descriptor finds none. -/
theorem not_dispatches_turn : ∃ s : ReactorLoop ℕ, (lts ℕ).Reachable s ∧ ¬s.Dispatches := by
  let es : List (LoopEvent ℕ) :=
    [.op (.set 5 .read 0), .listen [(5, .RD)], .resume, .dispatch, .op (.remove 5 .read),
      .op (.set 5 .write 1), .resume, .clean, .listen [(5, .WR)], .resume]
  have hrun : (es.foldlM (fun (s : ReactorLoop ℕ) e => s.step e) {}).map
      (fun s => (s.phase, (s.channels 5).isNone)) = some (.dispatching [(5, .write)], true) := by
    decide +kernel
  obtain ⟨s, hs, hshow⟩ := Option.map_eq_some_iff.mp hrun
  obtain ⟨hphase, hnone⟩ := Prod.mk.inj hshow
  refine ⟨s, ⟨{}, es, rfl, .of_foldlM (fun _ _ _ h => h) hs⟩, fun h => ?_⟩
  exact h 5 .write [] hphase (Option.isNone_iff_eq_none.mp hnone)

/-! ## A handler stays set -/

/-- The calls that may change a handler: `set` and `remove` of it, `erase` of its descriptor,
`clear`. -/
def Touches (fd : ℤ) (d : Dir) : LoopEvent κ → Prop
  | .op (.set fd' d' _) => fd' = fd ∧ d' = d
  | .op (.remove fd' d') => fd' = fd ∧ d' = d
  | .op (.erase fd') => fd' = fd
  | .op .clear => True
  | _ => False

instance (fd : ℤ) (d : Dir) : DecidablePred (Touches (κ := κ) fd d)
  | .op (.set fd' d' _) => inferInstanceAs (Decidable (fd' = fd ∧ d' = d))
  | .op (.remove fd' d') => inferInstanceAs (Decidable (fd' = fd ∧ d' = d))
  | .op (.erase fd') => inferInstanceAs (Decidable (fd' = fd))
  | .op .clear => .isTrue trivial
  | .listen _ | .resume | .dispatch | .clean => .isFalse not_false

/-- A clean-up does not find the descriptor queued. -/
def Unqueued (fd : ℤ) (s : ReactorLoop κ) (e : LoopEvent κ) : Prop := e = .clean → fd ∉ s.needclean

/-- The handlers of another descriptor stay. -/
theorem handler_setChannel_of_ne {fd' : ℤ} (h : fd ≠ fd') (c : Option (Channel κ)) :
    (s.setChannel fd' c).handler fd d = s.handler fd d := by
  simp [handler, setChannel, h]

/-- The handlers of a descriptor are those of its channel. -/
theorem handler_setChannel_self {c : Channel κ} :
    (s.setChannel fd (some c)).handler fd d = Reactor.callback c d := by
  simp [handler, setChannel]

/-- The handler of a channel that `init_channel` may have to make. -/
theorem callback_getD : Reactor.callback ((s.channels fd).getD {}) d = s.handler fd d := by
  unfold handler
  cases s.channels fd with
  | none => cases d <;> rfl
  | some c => rfl

/-- The handlers after one of them was set. -/
theorem handler_setHandler (fd' : ℤ) (d' : Dir) (f : κ) :
    (s.setHandler fd d f).handler fd' d' =
      if fd' = fd ∧ d' = d then some f else s.handler fd' d' := by
  by_cases hfd : fd' = fd
  · subst hfd
    refine handler_setChannel_self.trans ?_
    by_cases hd : d' = d
    · subst hd
      simp
    · rw [callback_set_of_ne _ hd, callback_getD, if_neg (fun h => hd h.2)]
  · rw [if_neg fun h => hfd h.1]
    exact handler_setChannel_of_ne hfd _

/-- The handlers after one of them was removed. -/
theorem handler_removeHandler (fd' : ℤ) (d' : Dir) :
    (s.removeHandler fd d).handler fd' d' =
      if fd' = fd ∧ d' = d then none else s.handler fd' d' := by
  unfold removeHandler
  cases hc : s.channels fd with
  | none =>
      show s.handler fd' d' = _
      by_cases h : fd' = fd ∧ d' = d
      · rw [if_pos h, h.1, handler, hc, Option.bind_none]
      · rw [if_neg h]
  | some c =>
      by_cases hfd : fd' = fd
      · subst hfd
        refine handler_setChannel_self.trans ?_
        by_cases hd : d' = d
        · subst hd
          simp
        · rw [callback_set_of_ne _ hd, if_neg (fun h => hd h.2), handler, hc]
          rfl
      · rw [if_neg fun h => hfd h.1]
        exact handler_setChannel_of_ne hfd _

/-- The interest and the queue of the clean-up after a handler that was set is removed. -/
theorem removeHandler_of_handler {f : κ} (h : s.handler fd d = some f) :
    (s.removeHandler fd d).interest = s.interest.remove fd d.mask ∧
      (s.removeHandler fd d).needclean =
        if (s.handler fd d.other).isNone then s.needclean ++ [fd] else s.needclean := by
  cases hc : s.channels fd with
  | none => simp [handler, hc] at h
  | some c =>
      have hother : s.handler fd d.other = Reactor.callback c d.other := by simp [handler, hc]
      rw [hother]
      simp [removeHandler, hc]

/-- A call that does not touch a handler leaves it alone. -/
theorem handler_apply {o : ChannelOp κ} (ho : ¬Touches fd d (.op o)) (h : s.apply o = some t) :
    t.handler fd d = s.handler fd d := by
  cases o with
  | set fd' d' f =>
      obtain ⟨-, ht⟩ := Option.ite_none_left_eq_some.mp h
      obtain rfl := Option.some.inj ht
      exact (handler_setHandler fd d f).trans (if_neg fun he => ho ⟨he.1.symm, he.2.symm⟩)
  | remove fd' d' =>
      obtain rfl := Option.some.inj h
      exact (handler_removeHandler fd d).trans (if_neg fun he => ho ⟨he.1.symm, he.2.symm⟩)
  | erase fd' =>
      obtain rfl := Option.some.inj h
      exact handler_setChannel_of_ne (fun hfd => ho hfd.symm) _
  | clear => exact absurd trivial ho

/-- **A step that does not touch a handler** keeps it exactly when it is no clean-up that finds the
descriptor queued. -/
theorem handler_step_iff {f : κ} {e : LoopEvent κ} (htouch : ¬Touches fd d e) (h : s.step e = some t) :
    t.handler fd d = some f ↔ s.handler fd d = some f ∧ Unqueued fd s e := by
  have hsame : e ≠ .clean → t.handler fd d = s.handler fd d →
      (t.handler fd d = some f ↔ s.handler fd d = some f ∧ Unqueued fd s e) := by
    intro hne heq
    rw [heq]
    exact (and_iff_left fun he => absurd he hne).symm
  cases e with
  | op o => exact hsame nofun (handler_apply htouch (step_op h).1)
  | listen events =>
      obtain ⟨-, rfl⟩ := step_listen h
      exact hsame nofun rfl
  | resume =>
      rw [step_resume h] at hsame ⊢
      exact hsame nofun rfl
  | dispatch =>
      obtain ⟨-, -, -, -, ht, -⟩ := step_dispatch h
      refine hsame nofun ?_
      rw [ht]
      rfl
  | clean =>
      have hhandler : t.handler fd d = if fd ∈ s.needclean then none else s.handler fd d := by
        rw [step_clean h]
        change (s.clean.channels fd).bind _ = _
        rw [channels_clean]
        split <;> rfl
      rw [hhandler]
      by_cases hq : fd ∈ s.needclean <;> simp [hq, Unqueued]

/-- **A handler that was set stays set** until it is touched exactly when no clean-up finds its
descriptor queued. -/
theorem handler_kept_iff {s₀ : ReactorLoop κ} {f : κ} {es : List (LoopEvent κ)}
    (hset : (lts κ).step s₀ (.op (.set fd d f)) s) (hrun : (lts κ).Run s es t)
    (hes : ∀ e ∈ es, ¬Touches fd d e) :
    t.handler fd d = some f ↔ ((lts κ).guard (Unqueued fd)).Run s es t := by
  have hstart : s.handler fd d = some f := by
    obtain ⟨-, ht⟩ := Option.ite_none_left_eq_some.mp (step_op hset).1
    obtain rfl := Option.some.inj ht
    exact handler_setChannel_self.trans (callback_set_self _ d _)
  let M : Lts (ReactorLoop κ) (LoopEvent κ) := (lts κ).guard fun _ e => ¬Touches fd d e
  have hdet : ∀ s e t t', M.step s e t → M.step s e t' → t = t' :=
    fun _ _ _ _ h h' => Option.some.inj (h.2.symm.trans h'.2)
  have hkept : ∀ s e t, True → M.step s e t →
      (t.handler fd d = some f ↔ s.handler fd d = some f ∧ Unqueued fd s e) :=
    fun _ _ _ _ h => handler_step_iff h.1 h.2
  have hrun' : M.Run s es t := hrun.guard_labels hes
  rw [hrun'.guard_iff hdet (fun _ _ _ _ _ => trivial) hkept trivial, and_iff_right hstart, Lts.guard_comm]
  exact ⟨Lts.Run.of_guard, fun h => h.guard_labels hes⟩

/-- While descriptor 5 is dispatched it loses its write handler, and keeps the read handler. -/
theorem handler_kept_otherDirection : ∃ t : ReactorLoop ℕ, t.handler 5 .read = some 0 := by
  have hset : (lts ℕ).step {} (.op (.set 5 .read 0)) (setHandler {} 5 .read 0) := rfl
  have hrun : ∃ t, ((lts ℕ).guard (Unqueued 5)).Run (setHandler {} 5 .read 0)
      [.op (.set 5 .write 1), .listen [(5, .RD)], .resume, .dispatch, .op (.remove 5 .write), .resume,
        .clean] t :=
    ⟨_, .cons ⟨nofun, rfl⟩ (.cons ⟨nofun, rfl⟩ (.cons ⟨nofun, rfl⟩ (.cons ⟨nofun, rfl⟩
      (.cons ⟨nofun, rfl⟩ (.cons ⟨nofun, rfl⟩ (.cons ⟨fun _ => nofun, rfl⟩ (.nil _)))))))⟩
  obtain ⟨t, hrun⟩ := hrun
  exact ⟨t, (handler_kept_iff hset hrun.of_guard (by decide)).mpr hrun⟩

/-- The clean-up drops a handler that was set after the removal that queued the descriptor. -/
theorem not_handler_kept_turn : ∃ s t : ReactorLoop ℕ, (lts ℕ).Reachable s ∧
    (lts ℕ).step s (.op (.set 5 .write 1)) t ∧
    (∃ t', (lts ℕ).Run t [.resume, .clean] t' ∧ t'.handler 5 .write ≠ some 1) := by
  have h₀ : (lts ℕ).Reachable {} := .of_init rfl
  have h₁ := h₀.step (a := LoopEvent.op (.set 5 .read 0)) rfl
  have h₂ := h₁.step (a := LoopEvent.listen [(5, .RD)]) rfl
  have h₃ := (h₂.step (a := LoopEvent.resume) rfl).step (a := LoopEvent.dispatch) rfl
  have h₄ := h₃.step (a := LoopEvent.op (.remove 5 .read)) rfl
  exact ⟨_, _, h₄, rfl, _, .cons rfl (.cons rfl (.nil _)), by decide +kernel⟩

/-! ## The reactor over `epoll`

With a descriptor that is open, and whose record is in step with the kernel, the methods of
`reactor<epoll>` do what the calls of the loop do. -/

/-- What the loop sees of a reactor over `epoll`. -/
def ofReactor (re : Reactor κ) : ReactorLoop κ where
  channels := re.channels
  needclean := re.needclean
  interest := re.io.old
  phase := .running re.active

variable {re : Reactor κ}

/-- `set_read_handler` of the worker's reactor is the one of the loop. -/
theorem ofReactor_setReadHandler (h : re.io.Synced fd) (hfd : 0 ≤ fd)
    (hopen : re.io.kernel.clients fd ≠ none) (f : κ) :
    ofReactor (re.setReadHandler fd f) = (ofReactor re).setHandler fd .read f := by
  have hold := EpollWait.old_add h hfd (by decide : Mask.RD ≠ .zero) hopen
  simp [ofReactor, Reactor.setReadHandler, Reactor.setChannel, Reactor.addRead, Reactor.initChannel,
    setHandler, setChannel, hold, Channel.set, Dir.mask]

/-- So is `set_write_handler`. -/
theorem ofReactor_setWriteHandler (h : re.io.Synced fd) (hfd : 0 ≤ fd)
    (hopen : re.io.kernel.clients fd ≠ none) (f : κ) :
    ofReactor (re.setWriteHandler fd f) = (ofReactor re).setHandler fd .write f := by
  have hold := EpollWait.old_add h hfd (by decide : Mask.WR ≠ .zero) hopen
  simp [ofReactor, Reactor.setWriteHandler, Reactor.setChannel, Reactor.addWrite, Reactor.initChannel,
    setHandler, setChannel, hold, Channel.set, Dir.mask]

/-- So is `remove_read_handler`. -/
theorem ofReactor_removeReadHandler (h : re.io.Synced fd) (hfd : 0 ≤ fd) :
    ofReactor (re.removeReadHandler fd) = (ofReactor re).removeHandler fd .read := by
  have hold := EpollWait.old_remove h hfd (by decide : Mask.RD ≠ .zero)
  unfold removeHandler
  cases hc : re.channels fd with
  | none =>
      have hc' : (ofReactor re).channels fd = none := hc
      simp only [Reactor.removeReadHandler, hc, hc']
  | some c =>
      have hc' : (ofReactor re).channels fd = some c := hc
      simp only [Reactor.removeReadHandler, hc, hc']
      cases hw : c.writecb <;>
        simp [ofReactor, Reactor.setChannel, Reactor.removeRead, setChannel, hold, Channel.set,
          Dir.mask, Dir.other, Reactor.callback, hw]

/-- So is `erase`. -/
theorem ofReactor_erase : ofReactor (re.erase fd) = (ofReactor re).erase fd := rfl

/-- So are calls of `erase` one after the other. -/
theorem ofReactor_foldl_erase (fds : List ℤ) (re : Reactor κ) :
    ofReactor (fds.foldl Reactor.erase re) = fds.foldl erase (ofReactor re) := by
  induction fds generalizing re with
  | nil => rfl
  | cons k fds ih => exact ih (re.erase k)

/-- So is the clean-up. -/
theorem ofReactor_clean : ofReactor re.clean = (ofReactor re).clean := by
  have hfold := ofReactor_foldl_erase re.needclean re
  change { ofReactor (re.needclean.foldl Reactor.erase re) with needclean := [] } = _
  rw [hfold]
  rfl

/-- The round that `listen` starts, after the clean-up of the one before. -/
theorem ofReactor_listen (events : List (ℤ × Mask)) : ofReactor (re.listen events) =
    { (ofReactor re).clean with phase := .running (events.flatMap Reactor.eventsOf) } := by
  rw [← ofReactor_clean]
  rfl

end ReactorLoop

end Libio
