import Libio.Http.Delivery
import Mathlib.Data.Int.CardIntervalMod

/-! # The whole server

The class `http_multithread_server` with its workers at work: `accept` gives a new descriptor to the
worker at `index`, and every worker goes on in its own time. A descriptor belongs to the process, so
`accept` never returns one that any worker has open.

Client number `g` of the server is client number `g / size` of worker `g % size`, and no other worker
has its descriptor (`delivered_in_full`). -/

namespace Libio

/-- The class `http_multithread_server`. The last member is history. -/
structure HttpMultithreadServer where
  threads : ℕ → HttpThread
  size : ℕ
  index : ℕ := 0
  /-- The number of clients accepted. -/
  accepted : ℕ := 0

/-- A step of the accept handler or of a worker. -/
inductive HttpServerEvent
  | accept (clientfd : ℤ)
  | thread (i : ℕ) (e : ThreadEvent)

namespace HttpMultithreadServer

/-- `init()`. -/
def init (size : ℕ) : HttpMultithreadServer where
  threads _ := HttpThread.start
  size := size

variable (s : HttpMultithreadServer)

/-- Replace a worker. -/
def setThread (i : ℕ) (t : HttpThread) : HttpMultithreadServer :=
  { s with threads := Function.update s.threads i t }

/-- A descriptor that is not in use in the process. -/
def Unused (fd : ℤ) : Prop := ∀ i < s.size, (s.threads i).kernel.clients fd = none

instance (fd : ℤ) : Decidable (s.Unused fd) :=
  inferInstanceAs (Decidable (∀ i < s.size, (s.threads i).kernel.clients fd = none))

/-- An event in which a worker is given a client. -/
def isArrival : ThreadEvent → Bool
  | .arrive _ => true
  | _ => false

/-- A step, where it is possible. The wake-up of a worker comes in its own time. -/
def step (server : HttpServer) : HttpServerEvent → Option HttpMultithreadServer
  | .accept clientfd =>
      if s.index < s.size ∧ s.Unused clientfd then
        ((s.threads s.index).step server (.arrive clientfd)).map fun t =>
          { s.setThread s.index t with
            index := (s.index + 1) % s.size
            accepted := s.accepted + 1 }
      else none
  | .thread i e =>
      if i < s.size ∧ isArrival e = false then ((s.threads i).step server e).map (s.setThread i)
      else none

/-- The server as a transition system. -/
def system (server : HttpServer) (size : ℕ) : Lts HttpMultithreadServer HttpServerEvent where
  init s := s = init size
  step s e t := s.step server e = some t

/-- The timers of every worker find the clients they were set for. -/
def Clear : HttpServerEvent → Prop
  | .accept _ => True
  | .thread i e => (s.threads i).Clear e

instance (e : HttpServerEvent) : Decidable (s.Clear e) :=
  match e with
  | .accept _ => .isTrue trivial
  | .thread i e => inferInstanceAs (Decidable ((s.threads i).Clear e))

variable {s} {t : HttpMultithreadServer} {server : HttpServer} {size : ℕ}

/-- The invariant. -/
structure Sound (server : HttpServer) (s : HttpMultithreadServer) : Prop where
  reachable : ∀ i, ((HttpThread.system server).guard HttpThread.Clear).Reachable (s.threads i)
  turn : s.index = s.accepted % s.size
  manned : 0 < s.accepted → 0 < s.size
  nextClient : ∀ i < s.size,
    (s.threads i).nextClient = s.accepted.count (· ≡ i [MOD s.size])
  /-- A descriptor is open in one worker only. -/
  apart : ∀ i j fd, i < s.size → j < s.size → (s.threads i).kernel.clients fd ≠ none →
    (s.threads j).kernel.clients fd ≠ none → i = j

/-- The thread that was replaced. -/
theorem threads_setThread_self {i : ℕ} {u : HttpThread} : (s.setThread i u).threads i = u := by
  simp [setThread]

/-- The other threads stay. -/
theorem threads_setThread_of_ne {i j : ℕ} {u : HttpThread} (h : j ≠ i) :
    (s.setThread i u).threads j = s.threads j := by
  simp [setThread, h]

/-- The server is sound when it is made. -/
theorem sound_init (server : HttpServer) (size : ℕ) : Sound server (init size) where
  reachable _ := .of_init rfl
  turn := (Nat.zero_mod size).symm
  manned := nofun
  nextClient _ _ := (Nat.count_zero _).symm
  apart _ _ _ _ _ hopen := absurd rfl hopen

/-- A worker goes on: it opens nothing but a descriptor that is not in use. -/
theorem Sound.setThread (h : Sound server s) {i : ℕ} {u : HttpThread} {e : ThreadEvent} (hi : i < s.size)
    (hu : ((HttpThread.system server).guard HttpThread.Clear).step (s.threads i) e u)
    (hopens : ∀ fd, u.kernel.clients fd ≠ none →
      (s.threads i).kernel.clients fd ≠ none ∨ s.Unused fd) :
    (∀ j, ((HttpThread.system server).guard HttpThread.Clear).Reachable
      ((s.setThread i u).threads j)) ∧
    ∀ j k fd, j < s.size → k < s.size → ((s.setThread i u).threads j).kernel.clients fd ≠ none →
      ((s.setThread i u).threads k).kernel.clients fd ≠ none → j = k := by
  have hself : (s.setThread i u).threads i = u := threads_setThread_self
  have hne : ∀ j, j ≠ i → (s.setThread i u).threads j = s.threads j := fun _ => threads_setThread_of_ne
  constructor
  · intro j
    by_cases hj : j = i
    · subst hj
      rw [hself]
      exact (h.reachable j).step hu
    · rw [hne j hj]
      exact h.reachable j
  · -- a descriptor of the worker that went on was its own, or nobody's
    have hown : ∀ j fd, j < s.size → j ≠ i → u.kernel.clients fd ≠ none →
        (s.threads j).kernel.clients fd ≠ none → False := by
      intro j fd hj hji hopen hopen'
      rcases hopens fd hopen with hold | hunused
      · exact hji (h.apart j i fd hj hi hopen' hold)
      · exact hopen' (hunused j hj)
    intro j k fd hj hk hopen hopen'
    by_cases hji : j = i
    · by_cases hki : k = i
      · rw [hji, hki]
      · rw [hji, hself] at hopen
        rw [hne k hki] at hopen'
        exact (hown k fd hk hki hopen hopen').elim
    · rw [hne j hji] at hopen
      by_cases hki : k = i
      · rw [hki, hself] at hopen'
        exact (hown j fd hj hji hopen' hopen).elim
      · rw [hne k hki] at hopen'
        exact h.apart j k fd hj hk hopen hopen'

/-- **Every clear step** keeps the invariant. -/
theorem Sound.step (h : Sound server s) {e : HttpServerEvent} (hclear : s.Clear e)
    (hs : s.step server e = some t) : Sound server t ∧ t.size = s.size := by
  cases e with
  | accept clientfd =>
      obtain ⟨⟨hindex, hunused⟩, hs⟩ := Option.ite_none_right_eq_some.mp hs
      obtain ⟨u, hu, rfl⟩ := Option.map_eq_some_iff.mp hs
      have hstep := hu
      obtain ⟨-, hu⟩ := Option.ite_none_right_eq_some.mp hu
      have hclients : u.kernel.clients = Function.update (s.threads s.index).kernel.clients clientfd
          (some (s.threads s.index).nextClient) := by
        rw [← Option.some.inj hu]
        rfl
      have hnext : u.nextClient = (s.threads s.index).nextClient + 1 := by rw [← Option.some.inj hu]
      obtain ⟨hreachable, hapart⟩ := h.setThread (e := .arrive clientfd) hindex ⟨trivial, hstep⟩ fun fd hopen => by
        by_cases hfd : fd = clientfd
        · exact .inr (hfd ▸ hunused)
        · rw [hclients, Function.update_of_ne hfd] at hopen
          exact .inl hopen
      refine ⟨⟨hreachable, ?_, fun _ => Nat.zero_lt_of_lt hindex, fun j hj => ?_, hapart⟩, rfl⟩
      · show (s.index + 1) % s.size = (s.accepted + 1) % s.size
        rw [h.turn, Nat.mod_add_mod]
      · show ((s.setThread s.index u).threads j).nextClient = (s.accepted + 1).count (· ≡ j [MOD s.size])
        rw [Nat.count_succ]
        have hmod : s.accepted ≡ j [MOD s.size] ↔ j = s.index := by
          rw [Nat.ModEq, Nat.mod_eq_of_lt (show j < s.size from hj), h.turn, eq_comm]
        by_cases hji : j = s.index
        · rw [if_pos (hmod.mpr hji), hji, threads_setThread_self, hnext, h.nextClient _ hindex]
        · rw [if_neg (mt hmod.mp hji), threads_setThread_of_ne hji, h.nextClient j hj]
          rfl
  | thread i e =>
      obtain ⟨⟨hi, harrival⟩, hs⟩ := Option.ite_none_right_eq_some.mp hs
      obtain ⟨u, hu, rfl⟩ := Option.map_eq_some_iff.mp hs
      have hw : HttpThread.Wired (s.threads i) := by
        obtain ⟨s₀, es, h₀, hr⟩ := h.reachable i
        exact HttpThread.wired_of_reachable ⟨s₀, es, h₀, hr.of_guard⟩
      have hopens := HttpThread.OpensNothing.step hw (fun fd he => by simp [he, isArrival] at harrival) hu
      obtain ⟨hreachable, hapart⟩ := h.setThread hi ⟨hclear, hu⟩ fun fd hopen =>
        .inl (hopens.clients fd hopen)
      refine ⟨⟨hreachable, h.turn, h.manned, fun j hj => ?_, hapart⟩, rfl⟩
      by_cases hji : j = i
      · rw [hji, threads_setThread_self, hopens.nextClient]
        exact h.nextClient i hi
      · rw [threads_setThread_of_ne hji]
        exact h.nextClient j hj

/-- **No client of the server is lost, and no reply**: in every run whose timers find the clients they
were set for, client number `g` is the client of worker `g % size` and of no other: it waits in its
queue, is served and owed what its object has in the write buffer, or is gone after its socket has
taken every byte of its replies. No descriptor is open in two workers. -/
theorem delivered_in_full (h : ((system server size).guard Clear).Reachable s) :
    (∀ g < s.accepted,
      (s.threads (g % size)).Waits (g / size) ∨ (s.threads (g % size)).ServedInFull (g / size) ∨
        (s.threads (g % size)).GonePaid (g / size)) ∧
    ∀ i j fd, i < size → j < size → (s.threads i).kernel.clients fd ≠ none →
      (s.threads j).kernel.clients fd ≠ none → i = j := by
  obtain ⟨hsound, hsize⟩ : Sound server s ∧ s.size = size := by
    refine h.invariant (P := fun s => Sound server s ∧ s.size = size) ?_ ?_
    · rintro s rfl
      exact ⟨sound_init server size, rfl⟩
    · rintro s e t ⟨h, hsize⟩ ⟨hclear, hs⟩
      obtain ⟨ht, hsame⟩ := h.step hclear hs
      exact ⟨ht, hsame.trans hsize⟩
  subst hsize
  refine ⟨fun g hg => ?_, hsound.apart⟩
  have hpos := hsound.manned (Nat.zero_lt_of_lt hg)
  refine HttpThread.served_of_reachable (hsound.reachable _) ?_
  rw [hsound.nextClient _ (Nat.mod_lt g hpos)]
  have hcount : g.count (· ≡ g % s.size [MOD s.size]) = g / s.size := by
    rw [Nat.count_modEq_card g hpos, Nat.mod_mod, if_neg (Nat.lt_irrefl _), Nat.add_zero]
  rw [← hcount]
  exact Nat.count_strict_mono (Nat.mod_modEq g s.size).symm hg

/-- Two clients come to two workers; the second asks once, wants the connection closed, and is let
go. -/
def farewellRun : List HttpServerEvent :=
  [.accept 5, .accept 6, .thread 1 .wakeup, .thread 1 (.listen [(6, .RD)]),
    .thread 1 (.read HttpThread.delayEnv (.data (str "GET /test HTTP/1.1\r\nConnection: close\r\n\r\n"))),
    .thread 1 (.listen [(6, .WR)]), .thread 1 (.write (.wrote 144)), .thread 1 (.listen [(6, .WR)]),
    .thread 1 (.write .again), .accept 6]

/-- The second client is gone and got its reply; its descriptor is in use again in the first worker. -/
theorem delivered_in_full_farewell : ∃ s : HttpMultithreadServer, ((s.threads 1).sent 0).length = 144 ∧
    (s.threads 0).kernel.clients 6 = some 1 ∧
    ((s.threads (1 % 2)).Waits (1 / 2) ∨ (s.threads (1 % 2)).ServedInFull (1 / 2) ∨
      (s.threads (1 % 2)).GonePaid (1 / 2)) := by
  have hrun : (farewellRun.foldlM (fun (s : HttpMultithreadServer) e =>
      if s.Clear e then s.step HttpThread.delayServer e else none) (init 2)).map
        (fun s => (s.accepted, ((s.threads 1).sent 0).length, (s.threads 0).kernel.clients 6)) =
      some (3, 144, some 1) := by
    decide +kernel
  obtain ⟨s, hs, hshow⟩ := Option.map_eq_some_iff.mp hrun
  obtain ⟨haccepted, hrest⟩ := Prod.mk.inj hshow
  obtain ⟨hsent, hopen⟩ := Prod.mk.inj hrest
  have hreach : ((system HttpThread.delayServer 2).guard Clear).Reachable s :=
    ⟨init 2, farewellRun, rfl,
      Lts.Run.of_foldlM (fun _ _ _ h => Option.ite_none_right_eq_some.mp h) hs⟩
  exact ⟨s, hsent, hopen, (delivered_in_full hreach).1 1 (haccepted ▸ by decide)⟩

end HttpMultithreadServer

end Libio
