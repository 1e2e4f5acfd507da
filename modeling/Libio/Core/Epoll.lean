import Mathlib.Data.Int.Notation
import Mathlib.Data.Nat.Notation
import Mathlib.Logic.Function.Basic

/-! # epoll

The class `epoll` of `core/epoll.hh` beside the kernel's interest list. The class keeps its own map
`events` of what it registered, and decides from that map alone which control operation to issue;
the kernel keeps the real registrations and drops one when its descriptor is closed. -/

namespace Libio

/-- A set of events: bits `RD` and `WR`. -/
@[ext]
structure Mask where
  rd : Bool
  wr : Bool
  deriving DecidableEq, Repr

namespace Mask

/-- No event. -/
def zero : Mask := ⟨false, false⟩

/-- `RD`. -/
def RD : Mask := ⟨true, false⟩

/-- `WR`. -/
def WR : Mask := ⟨false, true⟩

/-- `RDWR`. -/
def RDWR : Mask := ⟨true, true⟩

/-- Bitwise or. -/
def or (a b : Mask) : Mask := ⟨a.rd || b.rd, a.wr || b.wr⟩

/-- Bitwise and. -/
def and (a b : Mask) : Mask := ⟨a.rd && b.rd, a.wr && b.wr⟩

/-- The events of one mask that are not in the other. -/
def without (a b : Mask) : Mask := ⟨a.rd && !b.rd, a.wr && !b.wr⟩

/-- A statement about one mask holds when it does of its four values. -/
theorem forall_iff {P : Mask → Prop} : (∀ m, P m) ↔ P .zero ∧ P .RD ∧ P .WR ∧ P .RDWR := by
  refine ⟨fun h => ⟨h _, h _, h _, h _⟩, fun ⟨h0, hr, hw, hrw⟩ m => ?_⟩
  obtain ⟨rd, wr⟩ := m
  cases rd <;> cases wr <;> assumption

instance {P : Mask → Prop} [DecidablePred P] : Decidable (∀ m, P m) :=
  decidable_of_iff _ forall_iff.symm

variable {a b : Mask}

/-- Nothing is in common with no events. -/
@[simp] theorem and_zero : a.and .zero = .zero := by simp [and, zero]

/-- Taking no events away leaves the mask. -/
@[simp] theorem without_zero : a.without .zero = a := by simp [without, zero]

/-- There is nothing to take away from no events. -/
@[simp] theorem zero_without : zero.without a = .zero := by simp [without, zero]

/-- A mask has its own events. -/
@[simp] theorem or_self : a.or a = a := by simp [or]

/-- All events are all events, whatever is added. -/
@[simp] theorem RDWR_or : RDWR.or a = RDWR := by simp [or, RDWR]

/-- Adding events leaves some. -/
theorem or_ne_zero (h : b ≠ .zero) : a.or b ≠ .zero := by
  revert a b
  decide

/-- Removing what is not there changes nothing. -/
theorem without_of_and (h : b.and a = .zero) : a.without b = a := by
  revert a b
  decide

/-- What is left of both directions when one is removed. -/
theorem other_direction (h : a ≠ .zero) (h' : a ≠ .RDWR) :
    (if a = .RD then .WR else .RD) = RDWR.without a := by
  revert a
  decide

/-- What meets a mask and does not leave one of two directions leaves none. -/
theorem without_eq_zero (h : b.and a ≠ .zero) (h' : ¬(a = .RDWR ∧ b ≠ .RDWR)) :
    a.without b = .zero := by
  revert a b
  decide

end Mask

/-! ## The kernel -/

/-- The operations of `epoll_ctl`. -/
inductive CtlOp
  | add
  | mod
  | del
  deriving DecidableEq, Repr

/-- The kernel as one worker sees it: the client at the other end of each open connection, and the
interest list of the worker's epoll descriptor. -/
structure Kernel where
  clients : ℤ → Option ℕ
  registered : ℤ → Option Mask

namespace Kernel

/-- `epoll_ctl(epfd, op, fd, event)`; `none` is the result `-1`. -/
def epollCtl (k : Kernel) (op : CtlOp) (fd : ℤ) (event : Mask) : Option Kernel :=
  match op with
  | .add =>
      if k.clients fd ≠ none ∧ k.registered fd = none then
        some { k with registered := Function.update k.registered fd (some event) }
      else none
  | .mod =>
      if k.registered fd ≠ none then
        some { k with registered := Function.update k.registered fd (some event) }
      else none
  | .del =>
      if k.registered fd ≠ none then
        some { k with registered := Function.update k.registered fd none }
      else none

/-- `close(fd)`: the descriptor and its registration go. -/
def close (k : Kernel) (fd : ℤ) : Kernel where
  clients := Function.update k.clients fd none
  registered := Function.update k.registered fd none

end Kernel

/-! ## The class -/

/-- The class `epoll`, with the kernel behind it. -/
structure Epoll where
  /-- The member `events`; `none` where the map has no entry. -/
  events : ℤ → Option Mask
  kernel : Kernel

namespace Epoll

variable (e : Epoll)

/-- `events[fd]` as a value. -/
def old (fd : ℤ) : Mask := (e.events fd).getD .zero

/-- `is_readset(fd)`. -/
def isReadset (fd : ℤ) : Bool := (e.old fd).rd

/-- `is_writeset(fd)`. -/
def isWriteset (fd : ℤ) : Bool := (e.old fd).wr

/-- Replace the entry of a descriptor. -/
def setEvents (fd : ℤ) (m : Option Mask) : Epoll :=
  { e with events := Function.update e.events fd m }

/-- `add(fd, type)`. -/
def add (fd : ℤ) (type : Mask) : ℤ × Epoll :=
  if fd < 0 ∨ type = .zero then (-1, e)
  else
    let old := e.old fd
    -- `events[fd]` enters a missing descriptor with the value 0
    let e := e.setEvents fd (some old)
    if old = .RDWR ∨ old = type then (1, e)
    else
      let op : CtlOp := if old = .zero then .add else .mod
      let event := old.or type
      match e.kernel.epollCtl op fd event with
      | none => (-1, e)
      | some kernel => (0, { e.setEvents fd (some event) with kernel := kernel })

/-- `remove(fd, type)`. -/
def remove (fd : ℤ) (type : Mask) : ℤ × Epoll :=
  if fd < 0 ∨ type = .zero ∨ e.events fd = none then (-1, e)
  else
    let old := e.old fd
    if type.and old = .zero then (1, e)
    else
      let partly := old = .RDWR ∧ type ≠ .RDWR
      let op : CtlOp := if partly then .mod else .del
      let event : Mask := if partly then (if type = .RD then .WR else .RD) else old
      match e.kernel.epollCtl op fd event with
      | none => (-1, e)
      | some kernel =>
          (0, { e.setEvents fd (if partly then some event else none) with kernel := kernel })

/-! ## Operations on one descriptor -/

/-- `e'` is `e` after operations on the descriptor `fd` alone. -/
structure Touches (fd : ℤ) (e e' : Epoll) : Prop where
  clients : e'.kernel.clients = e.kernel.clients
  events : ∀ fd', fd' ≠ fd → e'.events fd' = e.events fd'
  registered : ∀ fd', fd' ≠ fd → e'.kernel.registered fd' = e.kernel.registered fd'

variable {e} {fd : ℤ} {type : Mask}

/-- Nothing touches at most this descriptor. -/
theorem Touches.refl (fd : ℤ) (e : Epoll) : Touches fd e e :=
  ⟨rfl, fun _ _ => rfl, fun _ _ => rfl⟩

/-- So do two such operations. -/
theorem Touches.trans {e' e'' : Epoll} (h : Touches fd e e') (h' : Touches fd e' e'') :
    Touches fd e e'' where
  clients := h'.clients.trans h.clients
  events fd' hfd := (h'.events fd' hfd).trans (h.events fd' hfd)
  registered fd' hfd := (h'.registered fd' hfd).trans (h.registered fd' hfd)

/-- So does entering its events. -/
theorem touches_setEvents (m : Option Mask) : Touches fd e (e.setEvents fd m) :=
  ⟨rfl, fun _ h => Function.update_of_ne h _ _, fun _ _ => rfl⟩

/-- So does `epoll_ctl` for it. -/
theorem touches_epollCtl {op : CtlOp} {event : Mask} {k : Kernel}
    (h : e.kernel.epollCtl op fd event = some k) : Touches fd e { e with kernel := k } := by
  refine ⟨?_, fun _ _ => rfl, fun fd' hfd => ?_⟩
  all_goals
    cases op <;> simp only [Kernel.epollCtl, Option.ite_none_right_eq_some, Option.some.injEq] at h <;>
      obtain ⟨-, rfl⟩ := h
  · rfl
  · rfl
  · rfl
  · exact Function.update_of_ne hfd _ _
  · exact Function.update_of_ne hfd _ _
  · exact Function.update_of_ne hfd _ _

/-- Adding and removing interest touch one descriptor. -/
theorem touches_add : Touches fd e (e.add fd type).2 := by
  unfold add
  split
  · exact .refl fd e
  · have henter : Touches fd e (e.setEvents fd (some (e.old fd))) := touches_setEvents _
    simp only
    split
    · exact henter
    · split
      · exact henter
      · next k hk =>
          exact henter.trans ((touches_epollCtl hk).trans
            (touches_setEvents (e := { e.setEvents fd (some (e.old fd)) with kernel := k }) _))

/-- So does `remove` for it. -/
theorem touches_remove : Touches fd e (e.remove fd type).2 := by
  unfold remove
  split
  · exact .refl fd e
  · simp only
    split
    · exact .refl fd e
    · generalize hop : (if e.old fd = .RDWR ∧ type ≠ .RDWR then CtlOp.mod else CtlOp.del) = op
      generalize (if e.old fd = .RDWR ∧ type ≠ .RDWR then
        (if type = .RD then Mask.WR else Mask.RD) else e.old fd) = event
      split
      · exact .refl fd e
      · next k hk =>
          exact (touches_epollCtl hk).trans (touches_setEvents (e := { e with kernel := k }) _)

/-! ## A map that is in step with the kernel -/

/-- What the map records of a descriptor is what the kernel has registered. -/
def Synced (e : Epoll) (fd : ℤ) : Prop :=
  e.kernel.registered fd = if e.old fd = .zero then none else some (e.old fd)

/-- The events of another descriptor stay. -/
theorem Touches.old {e' : Epoll} (h : Touches fd e e') {fd' : ℤ} (hfd : fd' ≠ fd) :
    e'.old fd' = e.old fd' := by
  rw [Epoll.old, h.events fd' hfd, ← Epoll.old]

/-- What the kernel knows of another descriptor stays right. -/
theorem Touches.synced {e' : Epoll} (h : Touches fd e e') {fd' : ℤ} (hfd : fd' ≠ fd)
    (hs : e.Synced fd') : e'.Synced fd' := by
  unfold Synced at *
  rw [h.old hfd, h.registered fd' hfd, hs]

/-- A control operation that succeeded, noted in the map. -/
theorem synced_note (e : Epoll) (fd : ℤ) {k : Kernel} {m : Option Mask} (hm : m ≠ some .zero)
    (hk : k.registered fd = m) : Synced { e.setEvents fd m with kernel := k } fd ∧
      old { e.setEvents fd m with kernel := k } fd = m.getD .zero := by
  have hold : old { e.setEvents fd m with kernel := k } fd = m.getD .zero := by
    simp [old, setEvents]
  refine ⟨?_, hold⟩
  rw [Synced, hold]
  cases m with
  | none => exact hk
  | some m => exact hk.trans (if_neg fun h => hm (congrArg some h)).symm

/-- **Adding interest** keeps the map in step, and records it for an open descriptor. -/
theorem Synced.add (h : e.Synced fd) (hfd : 0 ≤ fd) (htype : type ≠ .zero) :
    (e.add fd type).2.Synced fd ∧
      (e.kernel.clients fd ≠ none → (e.add fd type).2.old fd = (e.old fd).or type) := by
  have hneg : ¬(fd < 0 ∨ type = .zero) := by
    rintro (hlt | hz)
    · omega
    · exact htype hz
  have hor : (e.old fd).or type ≠ .zero := Mask.or_ne_zero htype
  have hset : (e.setEvents fd (some (e.old fd))).old fd = e.old fd := by simp [setEvents, old]
  have hsynced : (e.setEvents fd (some (e.old fd))).Synced fd := by
    rw [Synced, hset]
    exact h
  rw [Epoll.add, if_neg hneg]
  simp only
  by_cases hdone : e.old fd = .RDWR ∨ e.old fd = type
  · rw [if_pos hdone]
    refine ⟨hsynced, fun _ => hset.trans ?_⟩
    rcases hdone with hd | hd <;> rw [hd]
    · exact Mask.RDWR_or.symm
    · exact Mask.or_self.symm
  · rw [if_neg hdone]
    -- the operation the class chooses is the one that fits what is registered
    by_cases hzero : e.old fd = .zero
    · have hreg : e.kernel.registered fd = none := by rw [h, if_pos hzero]
      rw [if_pos hzero]
      by_cases hopen : e.kernel.clients fd = none
      · have hctl : (e.setEvents fd (some (e.old fd))).kernel.epollCtl .add fd
            ((e.old fd).or type) = none := if_neg fun hc => hc.1 hopen
        rw [hctl]
        exact ⟨hsynced, fun hc => absurd hopen hc⟩
      · have hctl : (e.setEvents fd (some (e.old fd))).kernel.epollCtl .add fd
            ((e.old fd).or type) = some { e.kernel with
              registered := Function.update e.kernel.registered fd (some ((e.old fd).or type)) } :=
          if_pos ⟨hopen, hreg⟩
        rw [hctl]
        exact (synced_note (e.setEvents fd (some (e.old fd))) fd
          (m := some ((e.old fd).or type)) (fun hc => hor (Option.some.inj hc))
          (Function.update_self fd _ e.kernel.registered)).imp id fun ho _ => ho
    · have hreg : e.kernel.registered fd ≠ none := by rw [h, if_neg hzero]; exact Option.some_ne_none _
      have hctl : (e.setEvents fd (some (e.old fd))).kernel.epollCtl .mod fd
          ((e.old fd).or type) = some { e.kernel with
            registered := Function.update e.kernel.registered fd (some ((e.old fd).or type)) } :=
        if_pos hreg
      rw [if_neg hzero, hctl]
      exact (synced_note (e.setEvents fd (some (e.old fd))) fd
        (m := some ((e.old fd).or type)) (fun hc => hor (Option.some.inj hc))
        (Function.update_self fd _ e.kernel.registered)).imp id fun ho _ => ho

/-- **Removing interest** keeps the map in step. -/
theorem Synced.remove (h : e.Synced fd) (hfd : 0 ≤ fd) (htype : type ≠ .zero) :
    (e.remove fd type).2.Synced fd ∧ (e.remove fd type).2.old fd = (e.old fd).without type := by
  rw [Epoll.remove]
  by_cases hnone : fd < 0 ∨ type = .zero ∨ e.events fd = none
  · rw [if_pos hnone]
    refine ⟨h, (Mask.without_of_and ?_).symm⟩
    rcases hnone with hlt | hz | hev
    · omega
    · exact absurd hz htype
    · simp [old, hev, Mask.and, Mask.zero]
  · rw [if_neg hnone]
    by_cases hnot : type.and (e.old fd) = .zero
    · simp only [if_pos hnot]
      exact ⟨h, (Mask.without_of_and hnot).symm⟩
    · have hold : e.old fd ≠ .zero := by
        intro hz
        rw [hz] at hnot
        exact hnot Mask.and_zero
      have hreg : e.kernel.registered fd ≠ none := by rw [h, if_neg hold]; exact Option.some_ne_none _
      simp only [if_neg hnot]
      by_cases hpartly : e.old fd = .RDWR ∧ type ≠ .RDWR
      · -- the other direction stays registered
        simp only [if_pos hpartly]
        have hother : (if type = .RD then Mask.WR else Mask.RD) = (e.old fd).without type := by
          rw [hpartly.1]
          exact Mask.other_direction htype hpartly.2
        have hzero : (e.old fd).without type ≠ .zero := by
          rw [← hother]
          split <;> decide
        rw [hother]
        have hctl : e.kernel.epollCtl .mod fd ((e.old fd).without type) = some { e.kernel with
            registered := Function.update e.kernel.registered fd
              (some ((e.old fd).without type)) } := if_pos hreg
        rw [hctl]
        exact synced_note e fd (m := some ((e.old fd).without type))
          (fun hc => hzero (Option.some.inj hc)) (Function.update_self fd _ e.kernel.registered)
      · simp only [if_neg hpartly]
        have hlast : (e.old fd).without type = .zero := Mask.without_eq_zero hnot hpartly
        have hctl : e.kernel.epollCtl .del fd (e.old fd) = some { e.kernel with
            registered := Function.update e.kernel.registered fd none } := if_pos hreg
        rw [hctl, hlast]
        exact synced_note e fd (m := none) nofun (Function.update_self fd none e.kernel.registered)

end Epoll

end Libio
