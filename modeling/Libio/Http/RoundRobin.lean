import Libio.Foundation.Dealing
import Libio.Http.WakeUp

/-! # The turns of the threads

The accept handler of `http_multithread_server` gives a client to the thread at `index` and moves
`index` on. What a whole run gives to each thread is therefore the clients dealt in turn, whatever
the threads do with them in between, and no thread gets more than one client more than another. -/

namespace Libio

universe u

namespace ServerEvent

variable {α : Type u}

/-- The client that an event hands over. -/
def client? : ServerEvent α → Option α
  | .push client => some client
  | .wakeup => none
  | .thread _ => none

/-- The clients of a run, in the order in which they were accepted. -/
def clients (es : List (ServerEvent α)) : List α := es.filterMap client?

/-- The clients of an event and of those behind it. -/
theorem clients_cons (e : ServerEvent α) (es : List (ServerEvent α)) :
    clients (e :: es) = e.client?.toList ++ clients es := by
  unfold clients
  cases e <;> rfl

end ServerEvent

namespace WakeUp

variable {α : Type u} {w w' : WakeUp α}

/-- Waking a thread pushes nothing. -/
theorem pushed_ring (value : ℕ) : (w.ring value).pushed = w.pushed := rfl

/-- A thread does not change what was pushed to it. -/
theorem pushed_step (hs : w.step = some w') : w'.pushed = w.pushed := by
  cases step_cases hs with
  | enter => rfl
  | leave => rfl
  | stay => rfl
  | read => rfl
  | pop => rfl
  | done => rfl

end WakeUp

namespace MultithreadServer

open ServerEvent

variable {α : Type u} {s t : MultithreadServer α}

/-- The clients `l` have been dealt to the threads in turn. Between the push and the write the turn
is still the one of the thread that has the last client. -/
structure Dealt (s : MultithreadServer α) (l : List α) : Prop where
  pushed : ∀ i, (s.threads i).pushed = deal s.size i l
  turn : s.pushing = false → s.index = l.length % s.size
  last : s.pushing = true → (s.index + 1) % s.size = l.length % s.size
  inside : 0 < l.length → s.index < s.size

/-- Nobody has been dealt a client in the beginning. -/
theorem dealt_init (size : ℕ) : (init (α := α) size).Dealt [] where
  pushed _ := rfl
  turn _ := (Nat.zero_mod size).symm
  last := nofun
  inside := nofun

/-- **Every step** deals the client that it hands over, if it hands one over. -/
theorem Dealt.step {l : List α} (h : s.Dealt l) {e : ServerEvent α} (hs : s.step e = some t) :
    t.Dealt (l ++ e.client?.toList) ∧ t.size = s.size := by
  cases e with
  | push client =>
      obtain ⟨⟨hidle, hlt⟩, ht⟩ := Option.ite_none_right_eq_some.mp hs
      obtain rfl := Option.some.inj ht
      have hturn : s.index = l.length % s.size := h.turn hidle
      refine ⟨⟨?_, nofun, fun _ => ?_, fun _ => hlt⟩, rfl⟩
      · -- the queue of the thread whose turn it is has the client now
        intro i
        show (Function.update s.threads s.index ((s.threads s.index).push client) i).pushed =
          deal s.size i (l ++ [client])
        rw [Dealing.deal_concat, ← hturn, ← h.pushed i]
        by_cases hi : i = s.index
        · subst hi
          rw [Function.update_self, if_pos rfl]
          rfl
        · rw [Function.update_of_ne hi, if_neg (Ne.symm hi), List.append_nil]
      · show (s.index + 1) % s.size = (l ++ [client]).length % s.size
        rw [hturn, Nat.mod_add_mod, List.length_append, List.length_singleton]
  | wakeup =>
      obtain ⟨hpushing, ht⟩ := Option.ite_none_right_eq_some.mp hs
      obtain rfl := Option.some.inj ht
      -- the write to the eventfd ends the turn and deals nothing
      have hnil : l ++ (wakeup : ServerEvent α).client?.toList = l := List.append_nil l
      rw [hnil]
      refine ⟨⟨?_, fun _ => h.last hpushing, nofun, fun hpos => ?_⟩, rfl⟩
      · refine forall_threads (P := fun i w => w.pushed = deal s.size i l) ?_ fun j _ => h.pushed j
        exact (WakeUp.pushed_ring WakeUp.wakeupValue).trans (h.pushed s.index)
      · exact Nat.mod_lt _ (Nat.zero_lt_of_lt (h.inside hpos))
  | thread i =>
      obtain ⟨w, hw, rfl⟩ := Option.map_eq_some_iff.mp hs
      have hnil : l ++ (thread i : ServerEvent α).client?.toList = l := List.append_nil l
      rw [hnil]
      refine ⟨⟨?_, h.turn, h.last, h.inside⟩, rfl⟩
      refine forall_threads (P := fun j w => w.pushed = deal s.size j l) ?_ fun j _ => h.pushed j
      rw [WakeUp.pushed_step hw, h.pushed i]

/-- A run deals the clients that it accepts. -/
theorem Dealt.run {l : List α} (h : s.Dealt l) {es : List (ServerEvent α)} (hr : (lts α).Run s es t) :
    t.Dealt (l ++ clients es) ∧ t.size = s.size := by
  induction hr generalizing l with
  | nil s => exact ⟨(List.append_nil l).symm ▸ h, rfl⟩
  | @cons s u t e es hst _ ih =>
      obtain ⟨hu, hsize⟩ := h.step hst
      obtain ⟨ht, hsize'⟩ := ih hu
      rw [clients_cons, ← List.append_assoc]
      exact ⟨ht, hsize'.trans hsize⟩

/-- **The clients are dealt in turn**: after any run of the server, thread `i` has made connections
of, or holds in its queue, exactly those clients, in order, whose number leaves the remainder `i`,
and no thread was given two clients more than another. -/
theorem dealt_in_turn {size : ℕ} {es : List (ServerEvent α)} (hr : (lts α).Run (init size) es s)
    (i : ℕ) :
    (s.threads i).connections ++ (s.threads i).clientQueue = deal size i (clients es) ∧
      ∀ j, i < size → j < size → (s.threads i).pushed.length ≤ (s.threads j).pushed.length + 1 := by
  obtain ⟨hdealt, hsize⟩ := (dealt_init size).run hr
  have hpushed : ∀ j, (s.threads j).pushed = deal size j (clients es) := by
    intro j
    rw [hdealt.pushed j, hsize]
    rfl
  have hsound : s.Sound := sound_of_reachable ⟨init size, es, ⟨size, rfl⟩, hr⟩
  refine ⟨(hsound.ordered i).trans (hpushed i), fun j hi hj => ?_⟩
  rw [hpushed i, hpushed j]
  exact Dealing.length_deal_le hi hj

/-- Of three clients the first thread of two gets the first and the third. -/
theorem dealt_in_turn_firstThread : ∃ s : MultithreadServer ℕ,
    (s.threads 0).connections ++ (s.threads 0).clientQueue = [5, 7] := by
  have hr : (lts ℕ).Run (init 2) [.push 5, .wakeup, .push 6, .wakeup, .push 7] _ :=
    .cons rfl (.cons rfl (.cons rfl (.cons rfl (.cons rfl (.nil _)))))
  exact ⟨_, (dealt_in_turn hr 0).1⟩

end MultithreadServer

end Libio
