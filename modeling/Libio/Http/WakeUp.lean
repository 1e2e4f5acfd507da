import Libio.Core.Lock
import Libio.Core.Text
import Libio.Foundation.Transition

/-! # Waking a thread up

How `http_multithread_server` hands clients to its threads: the accept handler pushes a client to
the queue of the next thread and writes to the thread's eventfd, and the wake-up handler of the
thread, which the reactor runs as long as the eventfd is readable, tests the queue, reads the
eventfd, and pops until a pop fails. A locked queue operation is one step, and so is a system call
on the eventfd. -/

namespace Libio

universe u

/-- Where a thread is in its wake-up handler: outside, in front of the test, of the read, of a
pop. -/
inductive WakeUpPc
  | outside
  | testing
  | reading
  | popping
  deriving DecidableEq

/-- An `http_thread` as far as it takes clients over, with the clients that were pushed to its queue
and those that were made connections of, in order. -/
structure WakeUp (α : Type u) where
  clientQueue : LockQueue α := []
  counter : ℕ := 0
  pc : WakeUpPc := .outside
  pushed : List α := []
  connections : List α := []
  deriving DecidableEq

namespace WakeUp

variable {α : Type u} (w : WakeUp α)

/-- The eight bytes of `wakeupmsg` as the integer that the eventfd adds. -/
def wakeupValue : ℕ := (str "0x123456").foldr (fun b n => b.toNat + 256 * n) 0

/-- `clientQueue.push(client)` by the acceptor. -/
def push (client : α) : WakeUp α :=
  { w with clientQueue := w.clientQueue.push client, pushed := w.pushed ++ [client] }

/-- `write(wakeupfd, value)`. -/
def ring (value : ℕ) : WakeUp α := { w with counter := EventFd.write w.counter value }

/-- `wakeup()`. -/
def wakeup : WakeUp α := w.ring wakeupValue

/-- The next step of the thread: the reactor runs the handler when the eventfd is readable, and the
handler goes on where it is. -/
def step : Option (WakeUp α) :=
  match w.pc with
  | .outside => if 0 < w.counter then some { w with pc := .testing } else none
  -- an empty queue ends the handler before the eventfd is read
  | .testing => some { w with pc := if w.clientQueue.empty then .outside else .reading }
  | .reading => some { w with counter := EventFd.read w.counter, pc := .popping }
  | .popping =>
      match w.clientQueue.pop with
      | some (client, clientQueue) =>
          some { w with clientQueue := clientQueue, connections := w.connections ++ [client] }
      | none => some { w with pc := .outside }

/-- The thread alone. -/
def lts (α : Type u) : Lts (WakeUp α) Unit where
  init w := w = {}
  step w _ w' := w.step = some w'

/-! ## Order -/

/-- The clients that became connections, and then those in the queue, are the clients pushed. -/
def Ordered : Prop := w.connections ++ w.clientQueue = w.pushed

/-- Outside its handler, or in front of the test, the thread is woken up when there is a client. -/
def Heard : Prop :=
  w.pc = .outside ∨ w.pc = .testing → w.clientQueue ≠ [] → 0 < w.counter

/-- The handler runs with a positive counter until it reads. -/
def Rung : Prop := w.pc = .testing → 0 < w.counter

variable {w} {w' : WakeUp α}

/-- The steps of the thread, rule by rule. -/
inductive Step (w : WakeUp α) : WakeUp α → Prop
  | enter (hpc : w.pc = .outside) (hpos : 0 < w.counter) : Step w { w with pc := .testing }
  | leave (hpc : w.pc = .testing) (hnil : w.clientQueue = []) : Step w { w with pc := .outside }
  | stay (hpc : w.pc = .testing) (hne : w.clientQueue ≠ []) : Step w { w with pc := .reading }
  | read (hpc : w.pc = .reading) :
      Step w { w with counter := EventFd.read w.counter, pc := .popping }
  | pop {client : α} {clientQueue : List α} (hpc : w.pc = .popping)
      (hqueue : w.clientQueue = client :: clientQueue) :
      Step w { w with clientQueue := clientQueue, connections := w.connections ++ [client] }
  | done (hpc : w.pc = .popping) (hnil : w.clientQueue = []) : Step w { w with pc := .outside }

/-- **What a step can do.** -/
theorem step_cases (hs : w.step = some w') : w.Step w' := by
  unfold WakeUp.step at hs
  split at hs
  · next hpc =>
      obtain ⟨hpos, rfl⟩ := Option.ite_some_none_eq_some.mp hs
      exact .enter hpc hpos
  · next hpc =>
      obtain rfl := Option.some.inj hs
      by_cases hempty : LockQueue.empty w.clientQueue = true
      · rw [if_pos hempty]
        exact .leave hpc (LockQueue.empty_iff.mp hempty)
      · rw [if_neg hempty]
        exact .stay hpc fun hnil => hempty (LockQueue.empty_iff.mpr hnil)
  · next hpc =>
      obtain rfl := Option.some.inj hs
      exact .read hpc
  · next hpc =>
      split at hs
      · next hpop =>
          obtain rfl := Option.some.inj hs
          exact .pop hpc (LockQueue.pop_eq_some.mp hpop)
      · next hpop =>
          obtain rfl := Option.some.inj hs
          exact .done hpc (LockQueue.pop_eq_none.mp hpop)

/-- A push keeps the order of arrival. -/
theorem Ordered.push (h : w.Ordered) (client : α) : (w.push client).Ordered := by
  unfold Ordered WakeUp.push LockQueue.push
  rw [← List.append_assoc, h]

/-- A thread that takes a client takes it from the front. -/
theorem Ordered.step (h : w.Ordered) (hs : w.step = some w') : w'.Ordered := by
  cases step_cases hs with
  | enter => exact h
  | leave => exact h
  | stay => exact h
  | read => exact h
  | pop _ hqueue =>
      unfold Ordered at h ⊢
      rw [← h, hqueue, List.append_assoc]
      rfl
  | done => exact h

/-- The bytes of `wakeupmsg` make a positive value that fits the counter. -/
theorem wakeupValue_fits : 0 < wakeupValue ∧ wakeupValue ≤ EventFd.maximum := by decide +kernel

/-- A write to the eventfd makes it readable. -/
theorem ring_pos {value : ℕ} (h : 0 < value ∧ value ≤ EventFd.maximum) : 0 < (w.ring value).counter :=
  EventFd.write_pos h.1 h.2

/-- It keeps the order of arrival. -/
theorem Ordered.ring (h : w.Ordered) (value : ℕ) : (w.ring value).Ordered := h

/-- So does `wakeup`. -/
theorem Ordered.wakeup (h : w.Ordered) : w.wakeup.Ordered := h.ring wakeupValue

/-- A thread that is woken up hears of its clients. -/
theorem rung_wakeup : w.wakeup.Rung := fun _ => ring_pos wakeupValue_fits

/-- Behind `wakeup` the thread is woken up. -/
theorem heard_wakeup : w.wakeup.Heard := fun _ _ => ring_pos wakeupValue_fits

/-- A thread goes outside with an empty queue only. -/
theorem Heard.step (hs : w.step = some w') : w'.Heard := by
  cases step_cases hs with
  | enter _ hpos => exact fun _ _ => hpos
  | leave _ hnil => exact fun _ hne => absurd hnil hne
  | stay => exact fun hpc => by simp at hpc
  | read => exact fun hpc => by simp at hpc
  | pop hpc => exact fun hpc' => by simp [hpc] at hpc'
  | done _ hnil => exact fun _ hne => absurd hnil hne

/-- The handler is entered with a positive counter. -/
theorem Rung.step (hs : w.step = some w') : w'.Rung := by
  cases step_cases hs with
  | enter _ hpos => exact fun _ => hpos
  | leave => exact nofun
  | stay => exact nofun
  | read => exact nofun
  | pop hpc => exact fun hpc' => by simp [hpc] at hpc'
  | done => exact nofun

/-! ## Coming to rest -/

/-- Nothing is left to do: the eventfd is not readable, and the queue is empty. -/
def Quiet (w : WakeUp α) : Prop := w.counter = 0 ∧ w.clientQueue = []

/-- The eventfd is readable exactly when there is a client, as long as the handler has not read it;
once it has, it is not readable. -/
def Calm (w : WakeUp α) : Prop :=
  match w.pc with
  | .outside => 0 < w.counter ↔ w.clientQueue ≠ []
  | .testing => 0 < w.counter ↔ w.clientQueue ≠ []
  | .reading => True
  | .popping => w.counter = 0

/-- The steps that are left of a calm handler. -/
def remaining (w : WakeUp α) : ℕ :=
  w.clientQueue.length +
    match w.pc with
    | .outside => if w.counter = 0 then 0 else 4
    | .testing => 3
    | .reading => 2
    | .popping => 1

/-- A thread that can take no step is outside its handler, with an eventfd that is not readable. -/
theorem step_eq_none : w.step = none ↔ w.pc = .outside ∧ w.counter = 0 := by
  unfold step
  split
  · next hpc => simp [hpc, Nat.pos_iff_ne_zero]
  · next hpc => simp [hpc]
  · next hpc => simp [hpc]
  · next hpc => split <;> simp [hpc]

/-- A thread rests outside the handler, with the eventfd not readable. -/
theorem stuck_iff : (lts α).Stuck w ↔ w.pc = .outside ∧ w.counter = 0 := by
  rw [← step_eq_none, Option.eq_none_iff_forall_ne_some]
  exact ⟨fun h w' hs => h () w' hs, fun h _ w' hs => h w' hs⟩

/-- **A calm handler** makes progress and stays calm. -/
theorem Calm.step (h : w.Calm) (hrung : w.Rung) (hs : w.step = some w') :
    w'.Calm ∧ w'.remaining < w.remaining := by
  cases step_cases hs with
  | enter hpc hpos =>
      have hcalm : 0 < w.counter ↔ w.clientQueue ≠ [] := by simpa [Calm, hpc] using h
      refine ⟨hcalm, ?_⟩
      simp only [remaining, hpc]
      rw [if_neg (Nat.pos_iff_ne_zero.mp hpos)]
      omega
  | leave hpc hnil =>
      have hcalm : 0 < w.counter ↔ w.clientQueue ≠ [] := by simpa [Calm, hpc] using h
      -- the test of a calm handler finds a client
      exact absurd hnil (hcalm.mp (hrung hpc))
  | stay hpc => simp [Calm, remaining, hpc]
  | read hpc => exact ⟨rfl, by simp [remaining, hpc]⟩
  | pop hpc hqueue =>
      have hzero : w.counter = 0 := by simpa [Calm, hpc] using h
      simp [Calm, remaining, hpc, hqueue, hzero]
  | done hpc hnil =>
      have hzero : w.counter = 0 := by simpa [Calm, hpc] using h
      simp [Calm, remaining, hpc, hnil, hzero]

/-- A calm thread settles. -/
theorem Calm.settles (h : w.Calm) (hrung : w.Rung) : (lts α).Settles Quiet w := by
  refine Lts.Settles.of_measure (I := fun w => w.Calm ∧ w.Rung) (μ := remaining) ?_ ?_ ⟨h, hrung⟩
  · rintro w _ w' ⟨hc, hr⟩ hs
    obtain ⟨hc', hlt⟩ := hc.step hr hs
    exact ⟨⟨hc', Rung.step hs⟩, hlt⟩
  · rintro w ⟨hc, -⟩ hstuck
    obtain ⟨hpc, hzero⟩ := stuck_iff.mp hstuck
    have hcalm : 0 < w.counter ↔ w.clientQueue ≠ [] := by simpa [Calm, hpc] using hc
    refine ⟨hzero, ?_⟩
    by_contra hne
    have := hcalm.mpr hne
    omega

/-- **The early return spins**: with a readable eventfd and an empty queue the handler runs for
ever. -/
theorem not_settles_of_idle (hpc : w.pc = .outside) (hpos : 0 < w.counter) (hnil : w.clientQueue = []) :
    ¬(lts α).Settles Quiet w := by
  have henter : (lts α).step w () { w with pc := .testing } := by
    simp only [lts, step, hpc]
    exact if_pos hpos
  have hback : (lts α).step { w with pc := .testing } () w := by
    simp only [lts, step]
    rw [if_pos (LockQueue.empty_iff.mpr hnil), ← hpc]
  exact Lts.not_settles_of_cycle (.cons henter (.cons hback (.nil w))) (by simp)

/-- A handler that has read the eventfd pops the whole queue. -/
theorem run_popping (hpc : w.pc = .popping) :
    ∃ as w', (lts α).Run w as w' ∧ w'.pc = .outside ∧ w'.clientQueue = [] ∧ w'.counter = w.counter := by
  generalize hn : w.clientQueue = q
  induction q generalizing w with
  | nil =>
      have hs : (lts α).step w () { w with pc := .outside } := by
        simp only [lts, step, hpc, LockQueue.pop_eq_none.mpr hn]
      exact ⟨[()], _, .cons hs (.nil _), rfl, hn, rfl⟩
  | cons client q ih =>
      have hs : (lts α).step w () { w with
          clientQueue := q, connections := w.connections ++ [client] } := by
        simp only [lts, step, hpc, LockQueue.pop_eq_some.mpr hn]
      obtain ⟨as, w', hr, hout, hnil, hcounter⟩ :=
        ih (w := { w with clientQueue := q, connections := w.connections ++ [client] }) hpc rfl
      exact ⟨() :: as, w', .cons hs hr, hout, hnil, hcounter⟩

/-- **A thread settles** exactly from its calm states. -/
theorem settles_iff_calm (hrung : w.Rung) : (lts α).Settles Quiet w ↔ w.Calm := by
  refine ⟨fun h => ?_, fun h => h.settles hrung⟩
  by_contra hcalm
  cases hpc : w.pc with
  | outside =>
      have hcalm : ¬(0 < w.counter ↔ w.clientQueue ≠ []) := by simpa [Calm, hpc] using hcalm
      by_cases hpos : 0 < w.counter
      · have hnil : w.clientQueue = [] := by
          by_contra hne
          exact hcalm (iff_of_true hpos hne)
        exact not_settles_of_idle hpc hpos hnil h
      · have hstuck : (lts α).Stuck w := stuck_iff.mpr ⟨hpc, by omega⟩
        have hquiet : Quiet w := h.final [] w (.nil w) hstuck
        exact hcalm (iff_of_false hpos (not_not.mpr hquiet.2))
  | testing =>
      have hcalm : ¬(0 < w.counter ↔ w.clientQueue ≠ []) := by simpa [Calm, hpc] using hcalm
      have hpos : 0 < w.counter := hrung hpc
      have hnil : w.clientQueue = [] := by
        by_contra hne
        exact hcalm (iff_of_true hpos hne)
      have hback : (lts α).step w () { w with pc := .outside } := by
        simp only [lts, step, hpc]
        rw [if_pos (LockQueue.empty_iff.mpr hnil)]
      have hsettles := h.of_run (.cons hback (.nil _))
      exact not_settles_of_idle (w := { w with pc := .outside }) rfl hpos hnil hsettles
  | reading => simp [Calm, hpc] at hcalm
  | popping =>
      have hpos : 0 < w.counter := by
        simp only [Calm, hpc] at hcalm
        omega
      obtain ⟨as, w', hr, hout, hnil, hcounter⟩ := run_popping hpc
      exact not_settles_of_idle hout (hcounter ▸ hpos) hnil (h.of_run hr)

end WakeUp

/-! ## The server -/

/-- The class `http_multithread_server` as far as it hands clients over. -/
structure MultithreadServer (α : Type u) where
  threads : ℕ → WakeUp α
  size : ℕ
  index : ℕ
  /-- The accept handler is between its push and its write. -/
  pushing : Bool

/-- A step of the server: the accept handler pushes a client, the accept handler writes to the
eventfd, or a thread takes its next step. -/
inductive ServerEvent (α : Type u)
  | push (client : α)
  | wakeup
  | thread (i : ℕ)
  deriving DecidableEq

namespace MultithreadServer

variable {α : Type u} (s : MultithreadServer α)

/-- `init()`. -/
def init (size : ℕ) : MultithreadServer α where
  threads _ := {}
  size := size
  index := 0
  pushing := false

/-- Replace a thread. -/
def setThread (i : ℕ) (w : WakeUp α) : MultithreadServer α :=
  { s with threads := Function.update s.threads i w }

/-- A step of the server. -/
def step : ServerEvent α → Option (MultithreadServer α)
  | .push client =>
      if s.pushing = false ∧ s.index < s.size then
        some { s.setThread s.index ((s.threads s.index).push client) with pushing := true }
      else none
  | .wakeup =>
      if s.pushing = true then
        some { s.setThread s.index (s.threads s.index).wakeup with
          index := (s.index + 1) % s.size, pushing := false }
      else none
  | .thread i => (s.threads i).step.map (s.setThread i)

/-- The server as a transition system: `resize` may have asked for any number of threads. -/
def lts (α : Type u) : Lts (MultithreadServer α) (ServerEvent α) where
  init s := ∃ size, s = init size
  step s e t := s.step e = some t

/-- The invariant: in every thread the order is kept, and every thread but the one that the accept
handler is about to wake up hears of its clients. -/
structure Sound (s : MultithreadServer α) : Prop where
  ordered : ∀ i, (s.threads i).Ordered
  rung : ∀ i, (s.threads i).Rung
  heard : ∀ i, (s.threads i).Heard ∨ s.pushing = true ∧ i = s.index

variable {s} {t : MultithreadServer α}

/-- Every thread is sound in the beginning. -/
theorem sound_init (size : ℕ) : (init (α := α) size).Sound where
  ordered _ := rfl
  rung _ := nofun
  heard _ := .inl fun _ hne => absurd rfl hne

/-- A predicate of the threads after one of them was replaced. -/
theorem forall_threads {P : ℕ → WakeUp α → Prop} {i : ℕ} {w : WakeUp α} (hi : P i w)
    (h : ∀ j, j ≠ i → P j (s.threads j)) : ∀ j, P j ((s.setThread i w).threads j) := by
  intro j
  by_cases hj : j = i
  · subst hj
    simpa [setThread] using hi
  · simpa [setThread, hj] using h j hj

/-- **Every step** keeps the invariant. -/
theorem Sound.step (h : s.Sound) {e : ServerEvent α} (hs : s.step e = some t) : t.Sound := by
  cases e with
  | push client =>
      obtain ⟨⟨hidle, -⟩, ht⟩ := Option.ite_none_right_eq_some.mp hs
      obtain rfl := Option.some.inj ht
      refine ⟨?_, ?_, ?_⟩
      · exact forall_threads ((h.ordered s.index).push client) fun j _ => h.ordered j
      · exact forall_threads (P := fun _ w => w.Rung) (h.rung s.index) fun j _ => h.rung j
      · refine forall_threads (P := fun j w => w.Heard ∨ true = true ∧ j = s.index)
          (.inr ⟨rfl, rfl⟩) fun j hj => .inl ?_
        exact (h.heard j).resolve_right fun hp => hj hp.2
  | wakeup =>
      obtain ⟨-, ht⟩ := Option.ite_none_right_eq_some.mp hs
      obtain rfl := Option.some.inj ht
      refine ⟨?_, ?_, ?_⟩
      · exact forall_threads (h.ordered s.index).wakeup fun j _ => h.ordered j
      · exact forall_threads (P := fun _ w => w.Rung) WakeUp.rung_wakeup fun j _ => h.rung j
      · intro j
        refine .inl ?_
        revert j
        refine forall_threads (P := fun _ w => w.Heard) WakeUp.heard_wakeup fun j hj => ?_
        exact (h.heard j).resolve_right fun hp => hj hp.2
  | thread i =>
      obtain ⟨w, hw, rfl⟩ := Option.map_eq_some_iff.mp hs
      refine ⟨?_, ?_, ?_⟩
      · exact forall_threads ((h.ordered i).step hw) fun j _ => h.ordered j
      · exact forall_threads (P := fun _ w => w.Rung) (WakeUp.Rung.step hw) fun j _ => h.rung j
      · exact forall_threads (P := fun j w => w.Heard ∨ s.pushing = true ∧ j = s.index)
          (.inl (WakeUp.Heard.step hw)) fun j _ => h.heard j

/-- **Run lemma.** The server is sound in every state reached. -/
theorem sound_of_reachable (h : (lts α).Reachable s) : s.Sound := by
  refine h.invariant ?_ fun s e t hs hstep => hs.step hstep
  rintro _ ⟨size, rfl⟩
  exact sound_init size

/-- **No client is stranded or taken twice**: the connections of a thread are the first of the
clients pushed to it, in order, and whenever a client waits while the thread is outside its handler
and the accept handler is not between its push and its write, the eventfd is readable. -/
theorem no_client_stranded (h : (lts α).Reachable s) (i : ℕ) :
    (s.threads i).connections ++ (s.threads i).clientQueue = (s.threads i).pushed ∧
      ((s.threads i).clientQueue ≠ [] → (s.threads i).pc = .outside → s.pushing = false →
        0 < (s.threads i).counter) := by
  have hsound := sound_of_reachable h
  refine ⟨hsound.ordered i, fun hne hpc hidle => ?_⟩
  rcases hsound.heard i with hheard | ⟨hpushing, -⟩
  · exact hheard (.inl hpc) hne
  · rw [hidle] at hpushing
    cases hpushing

/-- A client that was pushed and announced finds the eventfd readable. -/
theorem no_client_stranded_announced : ∃ s : MultithreadServer ℕ, (s.threads 0).clientQueue = [7] ∧
    0 < (s.threads 0).counter := by
  have h₀ : (lts ℕ).Reachable (init 2) := .of_init ⟨2, rfl⟩
  have h₁ := h₀.step (a := ServerEvent.push 7) rfl
  have h₂ := h₁.step (a := ServerEvent.wakeup) rfl
  exact ⟨_, rfl, (no_client_stranded h₂ 0).2 (by decide) rfl rfl⟩

/-- **The handler stops spinning** when the accept handler takes no further step exactly in a thread
whose handler is calm. -/
theorem settles_iff (h : (lts α).Reachable s) (i : ℕ) :
    (WakeUp.lts α).Settles WakeUp.Quiet (s.threads i) ↔ (s.threads i).Calm :=
  WakeUp.settles_iff_calm ((sound_of_reachable h).rung i)

/-- A thread that is woken up once for one client settles. -/
theorem settles_wokenOnce : ∃ s : MultithreadServer ℕ, (s.threads 0).clientQueue = [7] ∧
    (WakeUp.lts ℕ).Settles WakeUp.Quiet (s.threads 0) := by
  have h₀ : (lts ℕ).Reachable (init 2) := .of_init ⟨2, rfl⟩
  have h₁ := h₀.step (a := ServerEvent.push 7) rfl
  have h₂ := h₁.step (a := ServerEvent.wakeup) rfl
  exact ⟨_, rfl, (settles_iff h₂ 0).mpr
    (iff_of_true (WakeUp.ring_pos WakeUp.wakeupValue_fits) (List.cons_ne_nil 7 []))⟩

/-- The second client is popped in the run of the handler that was woken up for the first: the write
that announces it comes later, and the handler finds an empty queue from then on. -/
theorem not_settles_second : ∃ s : MultithreadServer ℕ, (lts ℕ).Reachable s ∧
    ¬(WakeUp.lts ℕ).Settles WakeUp.Quiet (s.threads 0) := by
  let es : List (ServerEvent ℕ) := [.push 7, .wakeup, .thread 0, .thread 0, .thread 0]
  let es' : List (ServerEvent ℕ) := [.push 8, .thread 0, .thread 0, .thread 0, .wakeup]
  -- one thread, so that both clients are pushed to it
  have hrun : ((es ++ es').foldlM (fun (s : MultithreadServer ℕ) e => s.step e) (init 1)).map
      (fun s => ((s.threads 0).pc, (s.threads 0).counter, (s.threads 0).clientQueue)) =
        some (.outside, WakeUp.wakeupValue, []) := by
    decide +kernel
  obtain ⟨s, hs, hshow⟩ := Option.map_eq_some_iff.mp hrun
  obtain ⟨hpc, hrest⟩ := Prod.mk.inj hshow
  obtain ⟨hcounter, hnil⟩ := Prod.mk.inj hrest
  have hpos : 0 < (s.threads 0).counter := hcounter ▸ WakeUp.wakeupValue_fits.1
  exact ⟨s, ⟨init 1, _, ⟨1, rfl⟩, .of_foldlM (fun _ _ _ h => h) hs⟩,
    WakeUp.not_settles_of_idle hpc hpos hnil⟩

end MultithreadServer

end Libio
