import Libio.Core.Epoll
import Libio.Core.Text
import Libio.Foundation.Component
import Libio.Foundation.Transition

/-! # The interface of a multiplexer

What `reactor` asks of its template parameter `IoMultiplex`: interest in the events of descriptors
is added, removed and queried, and `listen` makes one system call and shows what the call reported.
The abstract multiplexer is the set of interests alone. -/

namespace Libio

/-! ## The set of interests -/

/-- The events each descriptor is watched for. -/
abbrev InterestSet := ℤ → Mask

namespace InterestSet

/-- No descriptor is watched. -/
def empty : InterestSet := fun _ => .zero

/-- Add the bits of `type`. -/
def add (x : InterestSet) (fd : ℤ) (type : Mask) : InterestSet :=
  Function.update x fd ((x fd).or type)

/-- Remove the bits of `type`. -/
def remove (x : InterestSet) (fd : ℤ) (type : Mask) : InterestSet :=
  Function.update x fd ((x fd).without type)

end InterestSet

/-- A call about the interest in a descriptor. -/
inductive IoCall
  | add (fd : ℤ) (type : Mask)
  | remove (fd : ℤ) (type : Mask)
  | isReadset (fd : ℤ)
  | isWriteset (fd : ℤ)
  deriving DecidableEq, Repr

namespace IoCall

/-- The descriptor of a call. -/
def fd : IoCall → ℤ
  | .add fd _ => fd
  | .remove fd _ => fd
  | .isReadset fd => fd
  | .isWriteset fd => fd

/-- A call about a descriptor that fits an `fd_set`, with some event. -/
def Valid : IoCall → Prop
  | .add fd type => (0 ≤ fd ∧ fd ≤ 1023) ∧ type ≠ .zero
  | .remove fd type => (0 ≤ fd ∧ fd ≤ 1023) ∧ type ≠ .zero
  | .isReadset fd => 0 ≤ fd ∧ fd ≤ 1023
  | .isWriteset fd => 0 ≤ fd ∧ fd ≤ 1023

instance : DecidablePred Valid
  | .add fd type => inferInstanceAs (Decidable ((0 ≤ fd ∧ fd ≤ 1023) ∧ type ≠ .zero))
  | .remove fd type => inferInstanceAs (Decidable ((0 ≤ fd ∧ fd ≤ 1023) ∧ type ≠ .zero))
  | .isReadset fd => inferInstanceAs (Decidable (0 ≤ fd ∧ fd ≤ 1023))
  | .isWriteset fd => inferInstanceAs (Decidable (0 ≤ fd ∧ fd ≤ 1023))

/-- A call of a valid list is about a descriptor of that range. -/
theorem Valid.fd {c : IoCall} (h : c.Valid) : 0 ≤ c.fd ∧ c.fd ≤ 1023 := by
  cases c with
  | add fd type => exact h.1
  | remove fd type => exact h.1
  | isReadset fd => exact h
  | isWriteset fd => exact h

end IoCall

/-- **The abstract multiplexer**: calls change and query the set of interests; a query has an
answer. -/
def InterestSet.call (x : InterestSet) : IoCall → Option Bool × InterestSet
  | .add fd type => (none, x.add fd type)
  | .remove fd type => (none, x.remove fd type)
  | .isReadset fd => (some (x fd).rd, x)
  | .isWriteset fd => (some (x fd).wr, x)

/-! ## What the system call answers -/

/-- The events the kernel reports of a descriptor. -/
structure Revents where
  input : Bool := false
  output : Bool := false
  hup : Bool := false
  err : Bool := false
  nval : Bool := false
  deriving DecidableEq, Repr

/-- The events of the interface: a hang-up and an error wake both directions. -/
def Revents.event (what : Revents) : Mask :=
  ⟨what.input || (what.hup || what.err), what.output || (what.hup || what.err)⟩

/-- An answer of the kernel: what it reports, `0` after the time is over, or `-1`. -/
inductive KernelAnswer (ρ : Type)
  | ready (report : ρ)
  | timeout
  | error
  deriving DecidableEq, Repr

/-! ## Results

`poll` and `epoll` keep what `listen` found in two members of one kind. -/

/-- The members `result` and `activeFd`. -/
structure Results where
  result : ℤ → Option Mask := fun _ => none
  activeFd : List ℤ := []

namespace Results

variable (r : Results)

/-- `is_readable(fd)`. -/
def isReadable (fd : ℤ) : Bool := (r.result fd).any Mask.rd

/-- `is_writeable(fd)`. -/
def isWriteable (fd : ℤ) : Bool := (r.result fd).any Mask.wr

/-- `result[fd] = event; activeFd.push_back(fd);`. -/
def enter (fd : ℤ) (event : Mask) : Results where
  result := Function.update r.result fd (some event)
  activeFd := r.activeFd ++ [fd]

/-- Enter the descriptors with some event, in the order of a list. -/
def collect (r : Results) : List (ℤ × Mask) → Results
  | [] => r
  | (fd, event) :: l => if event = .zero then r.collect l else (r.enter fd event).collect l

/-- Enter all descriptors of a list. -/
def enterAll (r : Results) : List (ℤ × Mask) → Results
  | [] => r
  | (fd, event) :: l => (r.enter fd event).enterAll l

/-- The events shown of a descriptor. -/
def shown (fd : ℤ) : Mask := (r.result fd).getD .zero

/-- The active descriptors are those with shown events. -/
def Consistent : Prop := ∀ fd, fd ∈ r.activeFd ↔ r.shown fd ≠ .zero

variable {r} {fd fd' : ℤ} {event : Mask}

/-- What is readable is what is shown to be. -/
theorem isReadable_eq : r.isReadable fd = (r.shown fd).rd := by
  unfold isReadable shown
  cases r.result fd <;> rfl

/-- What is writeable is what is shown to be. -/
theorem isWriteable_eq : r.isWriteable fd = (r.shown fd).wr := by
  unfold isWriteable shown
  cases r.result fd <;> rfl

/-- A result that is entered is shown. -/
@[simp] theorem shown_enter_self : (r.enter fd event).shown fd = event := by simp [shown, enter]

/-- The results of other descriptors stay. -/
theorem shown_enter_of_ne (h : fd' ≠ fd) : (r.enter fd event).shown fd' = r.shown fd' := by
  simp [shown, enter, h]

/-- No results are consistent. -/
theorem consistent_empty : ({} : Results).Consistent := by
  intro fd
  simp [shown]

/-- A result that is entered keeps them consistent. -/
theorem Consistent.enter (h : r.Consistent) (hevent : event ≠ .zero) :
    (r.enter fd event).Consistent := by
  intro fd'
  by_cases hfd : fd' = fd
  · subst hfd
    rw [shown_enter_self]
    simp [hevent, Results.enter]
  · rw [shown_enter_of_ne hfd, ← h fd']
    simp [Results.enter, hfd]

/-- So do results one after the other. -/
theorem Consistent.collect (h : r.Consistent) (l : List (ℤ × Mask)) : (r.collect l).Consistent := by
  induction l generalizing r with
  | nil => exact h
  | cons e l ih =>
      obtain ⟨fd, event⟩ := e
      rw [Results.collect]
      split
      · exact ih h
      · next hevent => exact ih (h.enter hevent)

/-- Where every descriptor has some event the two loops are one. -/
theorem enterAll_eq_collect {l : List (ℤ × Mask)} (hl : ∀ e ∈ l, e.2 ≠ .zero) :
    r.enterAll l = r.collect l := by
  induction l generalizing r with
  | nil => rfl
  | cons e l ih =>
      obtain ⟨fd, event⟩ := e
      rw [enterAll, Results.collect, if_neg (hl (fd, event) (by simp))]
      exact ih fun e he => hl e (by simp [he])

/-- What a list of events of distinct descriptors reports. -/
def reportOf (l : List (ℤ × Mask)) : InterestSet := fun fd => (l.lookup fd).getD .zero

/-- **The loop over the reported events** shows them. -/
theorem shown_collect {l : List (ℤ × Mask)} (hl : (l.map Prod.fst).Nodup)
    (hr : ∀ e ∈ l, r.shown e.1 = .zero) :
    (r.collect l).shown fd = (l.lookup fd).getD (r.shown fd) := by
  induction l generalizing r with
  | nil => rfl
  | cons e l ih =>
      obtain ⟨k, event⟩ := e
      obtain ⟨hk, hnodup⟩ := List.nodup_cons.mp hl
      have hne : ∀ e ∈ l, e.1 ≠ k := by
        rintro e he rfl
        exact hk (List.mem_map.mpr ⟨e, he, rfl⟩)
      have hlookup : l.lookup k = none :=
        List.lookup_eq_none_iff.mpr fun e he => by simpa using (hne e he).symm
      have hrest : ∀ e ∈ l, r.shown e.1 = .zero := fun e he => hr e (by simp [he])
      have hother : ∀ e ∈ l, (r.enter k event).shown e.1 = .zero := fun e he => by
        rw [shown_enter_of_ne (hne e he), hrest e he]
      rw [collect, List.lookup_cons]
      by_cases hfd : fd = k
      · subst hfd
        rw [beq_self_eq_true]
        split
        · next hz =>
            rw [ih hnodup hrest, hlookup, hz]
            exact hr (fd, event) (by simp)
        · rw [ih hnodup hother, hlookup]
          exact shown_enter_self
      · rw [beq_eq_false_iff_ne.mpr hfd]
        split
        · exact ih hnodup hrest
        · rw [ih hnodup hother, shown_enter_of_ne hfd]

/-- Results of different descriptors are shown as they are. -/
theorem shown_collect_empty {l : List (ℤ × Mask)} (hl : (l.map Prod.fst).Nodup) :
    (({} : Results).collect l).shown = reportOf l :=
  funext fun _ => shown_collect hl fun _ _ => rfl

/-- Nothing is shown when nothing is active. -/
theorem Consistent.shown_eq_empty_iff (h : r.Consistent) :
    r.shown = InterestSet.empty ↔ r.activeFd = [] := by
  constructor
  · intro hshown
    rw [List.eq_nil_iff_forall_not_mem]
    exact fun fd hfd => (h fd).mp hfd (congrFun hshown fd)
  · intro hnil
    funext fd
    by_contra hne
    have hmem := (h fd).mpr hne
    rw [hnil] at hmem
    cases hmem

end Results

/-! ## The interface -/

/-- A class that can stand for the parameter `IoMultiplex`, with the reading of its states that the
results are about. -/
structure IoMultiplex where
  State : Type
  /-- What an answer of the system call carries when descriptors are ready. -/
  Report : Type
  /-- The states a constructor leaves. -/
  new : State → Prop
  /-- `add`, `remove`, `is_readset` and `is_writeset`; the last two have an answer. -/
  call : State → IoCall → Except Fault (Option Bool × State)
  listen : State → KernelAnswer Report → Except Fault (ℤ × State)
  getActiveFd : State → List ℤ
  isReadable : State → ℤ → Except Fault Bool
  isWriteable : State → ℤ → Except Fault Bool
  /-- The descriptors the class is for. -/
  Covers : ℤ → Prop
  /-- The answers the kernel may give in a state. -/
  Admits : State → KernelAnswer Report → Prop
  /-- What an answer reports. -/
  reported : State → KernelAnswer Report → InterestSet
  /-- What a state records. -/
  interest : State → InterestSet

namespace IoMultiplex

variable (M : IoMultiplex)

/-- A call of the class, or of `listen` with the answer of the kernel. -/
inductive Event (ρ : Type)
  | call (c : IoCall)
  | listen (a : KernelAnswer ρ)

/-- The class as a transition system: calls that return. -/
def lts : Lts M.State (Event M.Report) where
  init := M.new
  step s e t := match e with
    | .call c => ∃ o, M.call s c = .ok (o, t)
    | .listen a => M.Admits s a ∧ ∃ res, M.listen s a = .ok (res, t)

/-- The class does what the set of interests does, call for call. -/
def FollowsSet (s : M.State) (calls : List IoCall) : Prop :=
  Follows M.call InterestSet.call M.interest s calls

/-- A state shows exactly the descriptors that `r` reports. -/
structure Shows (s : M.State) (r : InterestSet) : Prop where
  active : ∀ fd, fd ∈ M.getActiveFd s ↔ r fd ≠ .zero
  readable : ∀ fd, M.Covers fd → M.isReadable s fd = .ok (r fd).rd
  writeable : ∀ fd, M.Covers fd → M.isWriteable s fd = .ok (r fd).wr

/-- `listen` returns, and shows exactly what this call reported. -/
def Reports (s : M.State) (a : KernelAnswer M.Report) : Prop :=
  ∃ res t, M.listen s a = .ok (res, t) ∧ M.Shows t (M.reported s a)

variable {M} {s t : M.State} {a : KernelAnswer M.Report} {res : ℤ}

/-- Calls lead from reachable states to reachable states. -/
theorem reachable_call (h : M.lts.Reachable s) {c : IoCall} {o : Option Bool}
    (hc : M.call s c = .ok (o, t)) : M.lts.Reachable t :=
  h.step (a := .call c) ⟨o, hc⟩

/-- `listen` leads from a reachable state to a reachable one. -/
theorem reachable_listen (h : M.lts.Reachable s) (ha : M.Admits s a)
    (hl : M.listen s a = .ok (res, t)) : M.lts.Reachable t :=
  h.step (a := .listen a) ⟨ha, res, hl⟩

/-- A call of `listen` has one outcome. -/
theorem reports_iff_shows (h : M.listen s a = .ok (res, t)) :
    M.Reports s a ↔ M.Shows t (M.reported s a) := by
  constructor
  · rintro ⟨res', t', h', hs⟩
    obtain ⟨-, rfl⟩ := Prod.mk.inj (Except.ok.inj (h.symm.trans h'))
    exact hs
  · exact fun hs => ⟨res, t, h, hs⟩

/-- A class whose queries read consistent results shows what these results show. -/
theorem shows_iff_shown {r : Results} (hr : r.Consistent) (hcovers : ∀ fd, M.Covers fd)
    (hactive : M.getActiveFd t = r.activeFd)
    (hread : ∀ fd, M.isReadable t fd = .ok (r.isReadable fd))
    (hwrite : ∀ fd, M.isWriteable t fd = .ok (r.isWriteable fd)) {x : InterestSet} :
    M.Shows t x ↔ r.shown = x := by
  constructor
  · intro hs
    funext fd
    have hrd := Except.ok.inj ((hread fd).symm.trans (hs.readable fd (hcovers fd)))
    have hwr := Except.ok.inj ((hwrite fd).symm.trans (hs.writeable fd (hcovers fd)))
    rw [Results.isReadable_eq] at hrd
    rw [Results.isWriteable_eq] at hwr
    exact Mask.ext hrd hwr
  · rintro rfl
    refine ⟨fun fd => ?_, fun fd _ => ?_, fun fd _ => ?_⟩
    · rw [hactive]
      exact hr fd
    · rw [hread, Results.isReadable_eq]
    · rw [hwrite, Results.isWriteable_eq]

end IoMultiplex

end Libio
