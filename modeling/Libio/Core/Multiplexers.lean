import Libio.Core.EpollWait
import Libio.Core.Poll
import Libio.Core.Select

/-! # The three multiplexers

`select`, `poll` and `epoll` beside each other: along which calls they are interchangeable, and when
`listen` reports the answer of the kernel and nothing else. -/

namespace Libio

/-! ## Interest -/

/-- **Interchangeability** along a list of calls: each of the three completes every call, answers
every query as the set of interests does, and records that set after each call. `left` is what the
constructor of `select` finds on the heap, `clients` the open descriptors. -/
def Interchangeable (left : Select) (clients : ℤ → Option ℕ) (calls : List IoCall) : Prop :=
  (∃ s, Select.construct left = .ok s ∧ Select.multiplex.FollowsSet s calls) ∧
    Poll.multiplex.FollowsSet ({} : Poll) calls ∧
    EpollWait.multiplex.FollowsSet (EpollWait.fresh clients) calls

/-- The calls that all three complete: `add` of an open descriptor that `select` has room for, and
the other calls on descriptors with recorded interest. -/
def CommonCall (clients : ℤ → Option ℕ) (x : InterestSet) (c : IoCall) : Prop :=
  Select.Completes c ∧ Poll.Completes x c ∧ EpollWait.Completes clients c

instance (clients : ℤ → Option ℕ) (x : InterestSet) : DecidablePred (CommonCall clients x) :=
  fun _ => inferInstanceAs (Decidable (_ ∧ _))

/-- **The multiplexers are interchangeable** along the calls that all three complete, and along no
other. -/
theorem interchangeable_iff (left : Select) (clients : ℤ → Option ℕ) (calls : List IoCall)
    (hcalls : ∀ c ∈ calls, c.Valid) : Interchangeable left clients calls ↔
      AllMeet InterestSet.call (CommonCall clients) .empty calls := by
  have hselect : (∃ s, Select.construct left = .ok s ∧ Select.multiplex.FollowsSet s calls) ↔
      Select.multiplex.FollowsSet (Select.fresh left) calls := by
    simp only [Select.construct_eq, Except.ok.injEq]
    exact exists_eq_left'
  unfold Interchangeable CommonCall
  rw [hselect, Select.followsSet_iff hcalls, Poll.followsSet_iff hcalls,
    EpollWait.followsSet_iff hcalls, allMeet_and, allMeet_and]

/-- All calls on one descriptor with interest, with blocks full of ones and every descriptor
open. -/
theorem interchangeable_oneDescriptor : Interchangeable
    ⟨fun _ => true, fun _ => true, fun _ => true, fun _ => true, 0, 0, []⟩ (fun _ => some 0)
    [.add 5 .RD, .isWriteset 5, .add 5 .RDWR, .remove 5 .RD, .isReadset 5, .remove 5 .WR] :=
  (interchangeable_iff _ _ _ (by decide)).mpr (by decide +kernel)

/-- Removing interest that was never added throws in `poll`, and adding a descriptor above 191 makes
`select` clear memory behind its blocks. -/
theorem not_interchangeable_remove_add :
    ¬Interchangeable ⟨fun _ => false, fun _ => false, fun _ => false, fun _ => false, 0, 0, []⟩
        (fun _ => some 0) [.remove 5 .RD] ∧
      ¬Interchangeable ⟨fun _ => false, fun _ => false, fun _ => false, fun _ => false, 0, 0, []⟩
        (fun _ => some 0) [.add 200 .RD] := by
  constructor
  · rintro ⟨-, hpoll, -⟩
    rw [Poll.followsSet_iff (by decide)] at hpoll
    revert hpoll
    decide
  · rintro ⟨⟨s, hs, hselect⟩, -, -⟩
    obtain rfl := Except.ok.inj (hs.symm.trans (Select.construct_eq _))
    rw [Select.followsSet_iff (by decide)] at hselect
    revert hselect
    decide

/-! ## Listening -/

/-- The classes of `core/` that can stand for the parameter of `reactor`. -/
inductive Multiplexer
  | select
  | poll
  | epoll

namespace Multiplexer

/-- The class itself. -/
def multiplex : Multiplexer → IoMultiplex
  | .select => Select.multiplex
  | .poll => Poll.multiplex
  | .epoll => EpollWait.multiplex

/-- **Nothing stale can be shown**: the system call did not fail (for `poll`: it reported
something), or there is nothing that an early result could be taken from. -/
def Unstale : (k : Multiplexer) → k.multiplex.State → KernelAnswer k.multiplex.Report → Prop
  | .select, (s : Select), a => a ≠ .error ∨ s.interest = InterestSet.empty
  | .poll, (p : Poll), a => p.Positive a ∨ p.activeFd = []
  | .epoll, (e : EpollWait), a => a ≠ .error ∨ e.activeFd = []

/-- **`listen` reports the last answer of the kernel** exactly when nothing stale can be shown. -/
theorem reports_iff_unstale (k : Multiplexer) (s : k.multiplex.State)
    (a : KernelAnswer k.multiplex.Report) (hs : k.multiplex.lts.Reachable s)
    (ha : k.multiplex.Admits s a) : k.multiplex.Reports s a ↔ k.Unstale s a := by
  cases k with
  | select => exact (Select.wf_of_reachable hs).reports_iff ha
  | poll => exact Poll.reports_iff (Poll.consistent_of_reachable hs) a
  | epoll => exact EpollWait.reports_iff (EpollWait.consistent_of_reachable hs) ha

/-- A `poll` that watches descriptor 5, and has found it readable. -/
def readablePoll : Poll := ((({} : Poll).add 5 .RD).2.listen (.ready fun _ => { input := true })).2

/-- It is reached by calls. -/
theorem reachable_readablePoll : Poll.multiplex.lts.Reachable readablePoll := by
  have hnew : Poll.multiplex.lts.Reachable ({} : Poll) := .of_init rfl
  have hwatch : Poll.multiplex.lts.Reachable (({} : Poll).add 5 .RD).2 :=
    IoMultiplex.reachable_call hnew (c := .add 5 .RD) rfl
  exact IoMultiplex.reachable_listen hwatch (a := .ready fun _ => { input := true }) trivial rfl

/-- It reports the next descriptors that are ready. -/
theorem reports_nextReady : Multiplexer.poll.multiplex.Reports readablePoll (.ready fun _ => { err := true }) := by
  have hunstale : Multiplexer.poll.Unstale readablePoll (.ready fun _ => { err := true }) :=
    .inl ⟨5, by decide +kernel, by decide⟩
  exact (reports_iff_unstale .poll readablePoll _ reachable_readablePoll trivial).mpr hunstale

/-- A time-out leaves the descriptor active that `poll` found before, an error the one that `epoll`
found, and an error makes `select` report what it watches. -/
theorem not_reports_stale :
    (Poll.multiplex.lts.Reachable readablePoll ∧ ¬Poll.multiplex.Reports readablePoll .timeout) ∧
    (∃ e, EpollWait.multiplex.lts.Reachable e ∧ ¬EpollWait.multiplex.Reports e .error) ∧
    ∃ s, Select.multiplex.lts.Reachable s ∧ ¬Select.multiplex.Reports s .error := by
  refine ⟨⟨reachable_readablePoll, fun h => ?_⟩, ?_, ?_⟩
  · have hcons := Poll.consistent_of_reachable reachable_readablePoll
    rcases (Poll.reports_iff hcons .timeout).mp h with hpositive | hnil
    · exact hpositive
    · exact absurd hnil (by decide +kernel)
  · have hnew : EpollWait.multiplex.lts.Reachable (EpollWait.fresh fun _ => some 0) :=
      .of_init ⟨_, rfl⟩
    have hwatch := IoMultiplex.reachable_call hnew (c := .add 5 .RD) rfl
    have hfound := IoMultiplex.reachable_listen hwatch (a := .ready [(5, { input := true })])
      ⟨by decide, by decide⟩ rfl
    refine ⟨_, hfound, fun h => ?_⟩
    have hcons := EpollWait.consistent_of_reachable hfound
    rcases (EpollWait.reports_iff hcons (a := .error) trivial).mp h with hready | hnil
    · exact hready rfl
    · exact absurd hnil (by decide)
  · have hnew : Select.multiplex.lts.Reachable
        (Select.fresh ⟨fun _ => false, fun _ => false, fun _ => false, fun _ => false, 0, 0, []⟩) :=
      .of_init ⟨_, Select.construct_eq _⟩
    have hwatch := IoMultiplex.reachable_call hnew (c := .add 5 .RD) rfl
    refine ⟨_, hwatch, fun h => ?_⟩
    rcases ((Select.wf_of_reachable hwatch).reports_iff (a := .error) trivial).mp h with
      herror | hempty
    · exact herror rfl
    · exact absurd (congrFun hempty 5) (by decide)

end Multiplexer

end Libio
